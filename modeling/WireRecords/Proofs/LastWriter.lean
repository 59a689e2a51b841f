import Mathlib.Data.List.Induction
import WireRecords.Proofs.Entries
import WireRecords.Proofs.TextBytes
import WireRecords.Settings

/-!
# The last writer decides

However settings are loaded, set and removed, a key has the value that the last operation to write
it has written, unless the key was removed later. What an operation writes does not depend on what
is there before, and of several values that it has for one key only the last one counts.
-/

namespace WireRecords

/-- Some item has one property, and all items behind it have the other. -/
def LastWhere {α : Type} (has spares : α → Prop) (items : List α) : Prop :=
  ∃ before item after, items = before ++ item :: after ∧ has item ∧ ∀ later ∈ after, spares later

theorem lastWhere_concat_iff {α : Type} {has spares : α → Prop} {items : List α} {last : α} :
    LastWhere has spares (items ++ [last]) ↔
      has last ∨ spares last ∧ LastWhere has spares items := by
  constructor
  · rintro ⟨before, item, after, split, found, spared⟩
    rcases List.eq_nil_or_concat after with rfl | ⟨front, end', rfl⟩
    · obtain ⟨-, same⟩ := List.append_inj' split rfl
      obtain ⟨rfl, -⟩ := List.cons.inj same
      exact .inl found
    · have split' : items ++ [last] = (before ++ item :: front) ++ [end'] := by simp [split]
      obtain ⟨rfl, same⟩ := List.append_inj' split' rfl
      obtain ⟨rfl, -⟩ := List.cons.inj same
      exact .inr ⟨spared last (by simp), before, item, front, rfl, found,
        fun later member => spared later (by simp [member])⟩
  · rintro (found | ⟨spares, before, item, after, rfl, found, spared⟩)
    · exact ⟨items, last, [], rfl, found, by simp⟩
    · refine ⟨before, item, after ++ [last], by simp, found, ?_⟩
      intro later member
      rcases List.mem_append.mp member with member | member
      · exact spared later member
      · rw [List.mem_singleton.mp member]
        exact spares

namespace Settings

inductive Operation where
  | set (key : String) (value : Setting)
  | remove (key : String)
  | clear
  | loadDefaults (values : List (String × Setting))
  | loadJson (text : String)
  | loadFile (files : FileSystem) (path : String) (format : FileFormat)
  | loadEnvironment (env : Environment) (start : String) (keys : List String)
  | loadArguments (arguments : List String)

inductive Report where
  | nothing
  | loaded (success : Bool)
  | removed (present : Bool)
  | count (n : Nat)
  deriving DecidableEq, Repr

def Report.Failure (r : Report) : Prop := r = .loaded false ∨ r = .removed false

def afterLoad (s : Settings) (loaded : Option Settings) : Settings × Report :=
  (loaded.getD s, .loaded loaded.isSome)

def perform (s : Settings) : Operation → Settings × Report
  | .set key value => (s.set key value, .nothing)
  | .remove key =>
    let fewer := s.remove key
    (fewer, .removed (fewer.values.entries.length < s.values.entries.length))
  | .clear => (empty, .nothing)
  | .loadDefaults values => (s.setAll values, .nothing)
  | .loadJson text => s.afterLoad (s.loadJson? text)
  | .loadFile files path format => s.afterLoad (s.loadFile? files path format)
  | .loadEnvironment env start keys =>
    let (loaded, n) := s.loadEnvironment env start keys
    (loaded, .count n)
  | .loadArguments arguments =>
    let (loaded, n) := s.loadArguments arguments
    (loaded, .count n)

def performAll (s : Settings) (ops : List Operation) : Settings :=
  ops.foldl (fun s op => (s.perform op).1) s

def fileMembers? (files : FileSystem) (path : String) (format : FileFormat) :
    Option (List (String × Json)) :=
  if format = .byName ∧ Text.lower (FileSystem.extension path) ≠ ".json" then none
  else (files.read? path).bind fun content =>
    (Json.textOf? content).bind documentMembers?

namespace Operation

/-- The entries that an operation sets, one after the other. -/
def writes : Operation → List (String × Setting)
  | set key value => [(key, value)]
  | remove _ => []
  | clear => []
  | loadDefaults values => values
  | loadJson text => ((documentMembers? text).map (flattenMembers "")).getD []
  | loadFile files path format => ((fileMembers? files path format).map (flattenMembers "")).getD []
  | loadEnvironment env start keys => environmentEntries env start keys
  | loadArguments arguments => (arguments.drop 1).filterMap ofArgument?

/-- The value that an operation leaves under a key that it writes. -/
def written? (op : Operation) (key : String) : Option Setting :=
  Entries.find? op.writes.reverse key

def Drops (key : String) : Operation → Prop
  | remove other => other = key
  | clear => True
  | _ => False

instance (key : String) (op : Operation) : Decidable (op.Drops key) := by
  cases op <;> simp only [Drops] <;> infer_instance

def strays : Operation → List String
  | loadArguments arguments =>
    (arguments.drop 1).filter fun argument => !"--".toList.isPrefixOf argument.toList
  | _ => []

end Operation

theorem get?_setAll (s : Settings) (entries : List (String × Setting)) (key : String) :
    (s.setAll entries).get? key = (Entries.find? entries.reverse key).or (s.get? key) :=
  s.values.get?_insertAll entries key

theorem loadFile?_eq (s : Settings) (files : FileSystem) (path : String) (format : FileFormat) :
    s.loadFile? files path format =
      (fileMembers? files path format).map fun ms => s.setAll (flattenMembers "" ms) := by
  rw [loadFile?, fileMembers?]
  split
  · rfl
  · cases files.read? path with
    | none => rfl
    | some content =>
      show (Json.textOf? content).bind s.loadJson? = _
      rw [Option.bind_some]
      cases Json.textOf? content with
      | none => rfl
      | some text => rfl

theorem afterLoad_map (s : Settings) (document : Option (List (String × Json))) :
    s.afterLoad (document.map fun ms => s.setAll (flattenMembers "" ms)) =
      (s.setAll ((document.map (flattenMembers "")).getD []), .loaded document.isSome) := by
  cases document <;> rfl

theorem ofArgument?_eq_none_iff {argument : String} :
    ofArgument? argument = none ↔ "--".toList.isPrefixOf argument.toList = false := by
  rw [ofArgument?]
  split
  · next cs start =>
    have dashes : "--".toList.isPrefixOf argument.toList = true := by rw [start]; rfl
    rw [dashes]
    split <;> simp
  · next other =>
    simp only [true_iff]
    by_contra dashes
    obtain ⟨cs, start⟩ := List.isPrefixOf_iff_prefix.mp (Bool.of_not_eq_false dashes)
    exact other cs start.symm

theorem values_perform (s : Settings) {op : Operation} (keeps : ∀ key, ¬ op.Drops key) :
    (s.perform op).1.values = s.values.insertAll op.writes := by
  cases op with
  | set key value => rfl
  | remove key => exact absurd rfl (keeps key)
  | clear => exact absurd trivial (keeps "")
  | loadDefaults values => rfl
  | loadJson text =>
    rw [perform, loadJson?, afterLoad_map]
    rfl
  | loadFile files path format =>
    rw [perform, loadFile?_eq, afterLoad_map]
    rfl
  | loadEnvironment env start keys => rfl
  | loadArguments arguments => rfl

theorem get?_perform_of_keeps (s : Settings) {op : Operation} (keeps : ∀ key, ¬ op.Drops key)
    (key : String) : (s.perform op).1.get? key = (op.written? key).or (s.get? key) := by
  rw [get?, values_perform s keeps]
  exact get?_setAll s op.writes key

theorem get?_perform (s : Settings) (op : Operation) (key : String) :
    (s.perform op).1.get? key =
      if op.Drops key then none else (op.written? key).or (s.get? key) := by
  cases op with
  | remove other => exact KeyMap.get?_erase s.values other key
  | clear => rfl
  | _ => exact (get?_perform_of_keeps s (fun _ => id) key).trans (if_neg id).symm

theorem isNone_ofArgument? (argument : String) :
    (ofArgument? argument).isNone = !"--".toList.isPrefixOf argument.toList := by
  cases dashes : "--".toList.isPrefixOf argument.toList with
  | false => rw [ofArgument?_eq_none_iff.mpr dashes]; rfl
  | true =>
    cases found : ofArgument? argument with
    | some entry => rfl
    | none => cases dashes.symm.trans (ofArgument?_eq_none_iff.mp found)

theorem positional_perform (s : Settings) {op : Operation} (keeps : op ≠ .clear) :
    (s.perform op).1.positional = s.positional ++ op.strays := by
  cases op with
  | clear => exact absurd rfl keeps
  | loadJson text =>
    rw [perform, loadJson?, afterLoad_map]
    exact (List.append_nil _).symm
  | loadFile files path format =>
    rw [perform, loadFile?_eq, afterLoad_map]
    exact (List.append_nil _).symm
  | loadArguments arguments =>
    simp only [perform, loadArguments, Operation.strays, isNone_ofArgument?]
  | _ => exact (List.append_nil _).symm

theorem perform_of_failure {s : Settings} {op : Operation} (failed : (s.perform op).2.Failure) :
    (s.perform op).1 = s ∧ op.writes = [] := by
  have load {document : Option (List (String × Json))}
      (failed : Report.Failure (.loaded document.isSome)) : document = none := by
    rcases failed with failed | failed
    · simpa using failed
    · cases failed
  cases op with
  | loadJson text =>
    rw [perform, loadJson?, afterLoad_map] at failed ⊢
    rw [Operation.writes, load failed]
    exact ⟨rfl, rfl⟩
  | loadFile files path format =>
    rw [perform, loadFile?_eq, afterLoad_map] at failed ⊢
    rw [Operation.writes, load failed]
    exact ⟨rfl, rfl⟩
  | remove key =>
    rcases failed with failed | failed
    · cases failed
    · refine ⟨?_, rfl⟩
      cases found : s.values.get? key with
      | some value =>
        have shorter := Entries.length_erase_lt found
        simp [perform, remove, KeyMap.erase, shorter] at failed
      | none =>
        rw [perform]
        simp only [remove, KeyMap.erase_of_get?_eq_none found]
  | _ => rcases failed with failed | failed <;> cases failed

theorem perform_remove (s : Settings) (key : String) :
    (s.perform (.remove key)).2 = .removed (s.has key) := by
  rw [perform, has, KeyMap.contains]
  cases found : s.values.get? key with
  | some value =>
    have shorter := Entries.length_erase_lt found
    simp [remove, KeyMap.erase, shorter]
  | none => simp [remove, KeyMap.erase_of_get?_eq_none found]

theorem mem_keysStartingWith_iff (s : Settings) (start key : String) :
    key ∈ s.keysStartingWith start ↔ s.has key ∧ Text.bytes start <+: Text.bytes key := by
  rw [keysStartingWith, List.mem_filter, KeyMap.mem_keys_iff, Text.bytes_prefix_iff,
    List.isPrefixOf_iff_prefix]
  rfl

theorem pairwise_keysStartingWith (s : Settings) (start : String) :
    (s.keysStartingWith start).Pairwise fun a b => Text.bytes a < Text.bytes b := by
  have sorted : s.values.keys.Pairwise fun a b => Text.bytes a < Text.bytes b := by
    apply List.pairwise_map.mpr
    apply s.values.sorted.imp
    intro a b less
    exact Text.lt_iff_bytes_lt.mp less
  exact sorted.sublist List.filter_sublist

theorem mem_environmentEntries_iff {env : Environment} {start key : String} {keys : List String}
    {value : Setting} : (key, value) ∈ environmentEntries env start keys ↔
      key ∈ keys ∧ ∃ text, env.get? (Environment.variableOf start key) = some text ∧
        value = .text text := by
  simp only [environmentEntries, List.mem_filterMap, Option.map_eq_some_iff, Prod.mk.injEq]
  constructor
  · rintro ⟨_, listed, text, found, rfl, rfl⟩
    exact ⟨listed, text, found, rfl⟩
  · rintro ⟨listed, text, found, rfl⟩
    exact ⟨key, listed, text, found, rfl, rfl⟩

theorem written?_loadEnvironment {env : Environment} {start key : String} {keys : List String}
    {value : Setting} : (Operation.loadEnvironment env start keys).written? key = some value ↔
      key ∈ keys ∧ ∃ text, env.get? (Environment.variableOf start key) = some text ∧
        value = .text text := by
  rw [Operation.written?, Operation.writes, ← mem_environmentEntries_iff]
  constructor
  · intro found
    exact List.mem_reverse.mp (Entries.mem_of_find? found)
  · intro member
    apply Entries.find?_of_unique (List.mem_reverse.mpr member)
    intro other same
    obtain ⟨-, text, set, rfl⟩ := mem_environmentEntries_iff.mp member
    obtain ⟨-, text', set', rfl⟩ := mem_environmentEntries_iff.mp (List.mem_reverse.mp same)
    rw [Option.some.inj (set.symm.trans set')]

theorem length_environmentEntries (env : Environment) (start : String) (keys : List String) :
    (environmentEntries env start keys).length =
      keys.countP fun key => (env.get? (Environment.variableOf start key)).isSome := by
  rw [environmentEntries, List.length_filterMap_eq_countP]
  simp only [Option.isSome_map]

/-- The operation leaves a key as it is. -/
def Operation.Spares (key : String) (op : Operation) : Prop :=
  ¬ op.Drops key ∧ op.written? key = none

instance (key : String) (op : Operation) : Decidable (op.Spares key) :=
  inferInstanceAs (Decidable (_ ∧ _))

theorem Operation.written?_of_drops {op : Operation} {key : String} (drops : op.Drops key) :
    op.written? key = none := by
  cases op with
  | remove _ => rfl
  | clear => rfl
  | _ => cases drops

/-- The last operation that does not spare the key has written the value. -/
def LastWritten (ops : List Operation) (key : String) (value : Setting) : Prop :=
  LastWhere (fun op => op.written? key = some value) (Operation.Spares key) ops

theorem performAll_concat (s : Settings) (ops : List Operation) (op : Operation) :
    s.performAll (ops ++ [op]) = ((s.performAll ops).perform op).1 := by
  rw [performAll, List.foldl_append]
  rfl

theorem get?_performAll_eq_some_iff {ops : List Operation} {key : String} {value : Setting} :
    (empty.performAll ops).get? key = some value ↔ LastWritten ops key value := by
  -- on the run, from its end: the last operation decides unless it spares the key
  induction ops using List.reverseRecOn with
  | nil => simp [performAll, empty, get?, LastWritten, LastWhere]
  | append_singleton ops op ih =>
    rw [performAll_concat, LastWritten, lastWhere_concat_iff, ← LastWritten, ← ih, get?_perform,
      Operation.Spares]
    by_cases drops : op.Drops key
    · simp [drops, op.written?_of_drops drops]
    · cases written : op.written? key <;> simp [drops]

theorem positional_performAll (s : Settings) {ops : List Operation} (kept : .clear ∉ ops) :
    (s.performAll ops).positional = s.positional ++ ops.flatMap Operation.strays := by
  induction ops generalizing s with
  | nil => exact (List.append_nil _).symm
  | cons op ops ih =>
    obtain ⟨first, others⟩ := not_or.mp (List.mem_cons.not.mp kept)
    rw [performAll, List.foldl_cons, ← performAll, ih _ others,
      positional_perform s (Ne.symm first), List.flatMap_cons, List.append_assoc]

/-- After any operations on empty settings a key has the value that the last one to write it has
written, if no later one has taken it away. It does not matter in which order an operation goes
through the keys that it writes. Failures change nothing, keys are listed in the order of their
bytes, and the arguments that are no settings stay in order until the settings are cleared. -/
theorem performAll_last_writer (ops : List Operation) :
    let s := empty.performAll ops
    (∀ key value, s.get? key = some value ↔
      ∃ before op after, ops = before ++ op :: after ∧ op.written? key = some value ∧
        ∀ later ∈ after, ¬ later.Drops key ∧ later.written? key = none) ∧
    (∀ op : Operation, (∀ key, ¬ op.Drops key) →
      ∀ order : List (String × Setting), order.Perm (KeyMap.ofList op.writes).entries →
        (s.perform op).1.values = s.values.insertAll order) ∧
    (∀ op, (s.perform op).2.Failure → (s.perform op).1 = s ∧ ∀ key, op.written? key = none) ∧
    (∀ key, (s.perform (.remove key)).2 = .removed (s.has key)) ∧
    (∀ start,
      (s.keysStartingWith start).Pairwise (fun a b => Text.bytes a < Text.bytes b) ∧
      ∀ key, key ∈ s.keysStartingWith start ↔ s.has key ∧ Text.bytes start <+: Text.bytes key) ∧
    (.clear ∉ ops → s.positional = ops.flatMap Operation.strays) ∧
    (∀ before after, ops = before ++ .clear :: after → .clear ∉ after →
      s.positional = after.flatMap Operation.strays) ∧
    ∀ env start keys,
      (s.perform (.loadEnvironment env start keys)).2 = .count
        (keys.countP fun key => (env.get? (Environment.variableOf start key)).isSome) ∧
      ∀ key value, (Operation.loadEnvironment env start keys).written? key = some value ↔
        key ∈ keys ∧ ∃ text, env.get? (Environment.variableOf start key) = some text ∧
          value = .text text := by
  intro s
  refine ⟨fun key value => get?_performAll_eq_some_iff, ?_, ?_, s.perform_remove, ?_, ?_, ?_, ?_⟩
  · intro op keeps order perm
    rw [values_perform s keeps, s.values.insertAll_of_perm perm]
  · intro op failed
    obtain ⟨unchanged, nothing⟩ := perform_of_failure failed
    refine ⟨unchanged, fun key => ?_⟩
    rw [Operation.written?, nothing]
    rfl
  · intro start
    exact ⟨s.pairwise_keysStartingWith start, s.mem_keysStartingWith_iff start⟩
  · intro kept
    exact positional_performAll empty kept
  · intro before after split kept
    have last : s = empty.performAll after := by
      show empty.performAll ops = _
      rw [split, performAll, List.foldl_append, List.foldl_cons]
      rfl
    rw [last]
    exact positional_performAll empty kept
  · intro env start keys
    refine ⟨?_, fun key value => written?_loadEnvironment⟩
    rw [← length_environmentEntries]
    rfl

/-- A document has one key twice, and the same variable is asked for twice. -/
theorem performAll_last_writer_document :
    let env : Environment := { assignments := ["P_A_B=", "P_Y=no"] }
    let ops : List Operation :=
      [.loadArguments ["program", "before"], .clear, .set "x" (.int 1),
       .loadJson "\x7b\"a\":\x7b\"b\":1\x7d,\"a.b\":[2,\"3\"],\"y\":null\x7d",
       .loadArguments ["program", "in", "--x", "--y=1=2", "out"],
       .remove "y", .loadJson "\x7b\"x\":", .loadEnvironment env "P_" ["a-b", "z", "a-b"]]
    let s := empty.performAll ops
    s.get? "x" = some (.bool true) ∧ s.get? "a.b" = some (.list ["2", "3"]) ∧
      s.get? "a-b" = some (.text "") ∧ s.get? "y" = none ∧
      s.positional = ["in", "out"] := by
  intro env ops s
  obtain ⟨stored, -, -, -, -, -, positional, -⟩ := performAll_last_writer ops
  refine ⟨(stored _ _).mpr ⟨ops.take 4, _, ops.drop 5, rfl, by decide +kernel, by decide +kernel⟩,
    (stored _ _).mpr ⟨ops.take 3, _, ops.drop 4, rfl, by decide +kernel, by decide +kernel⟩,
    (stored _ _).mpr ⟨ops.take 7, _, [], rfl, by decide +kernel, by simp⟩,
    by decide +kernel, positional (ops.take 1) (ops.drop 2) rfl (by simp [ops])⟩

end Settings

end WireRecords
