import Mathlib.Data.List.Induction
import WireRecords.Log.Hub
import WireRecords.Proofs.Entries

/-!
# Registered loggers are alike

The settings of the registry reach a logger in two ways: they are pushed to those that are there,
and copied when a new one is made. Either way a registered logger has the level of the registry and
its sinks, each of them once, so it does not show when it was first asked for.
-/

namespace WireRecords.Log

namespace Logger

theorem sinks_addSink (l : Logger) (s : SinkId) :
    (l.addSink s).sinks = if s ∈ l.sinks then l.sinks else l.sinks ++ [s] := by
  simp only [addSink, List.contains_iff_mem]
  split <;> rfl

theorem addSink_eq (l : Logger) (s : SinkId) :
    l.addSink s = { l with sinks := (l.addSink s).sinks } := by
  simp only [addSink]
  split <;> rfl

theorem eraseDups_concat (ids : List SinkId) (s : SinkId) :
    (ids ++ [s]).eraseDups =
      if s ∈ ids.eraseDups then ids.eraseDups else ids.eraseDups ++ [s] := by
  rw [List.eraseDups_append]
  by_cases member : s ∈ ids
  · simp [List.removeAll, List.mem_eraseDups, member]
  · simp [List.removeAll, List.mem_eraseDups, member, List.eraseDups_cons]

theorem eraseDups_of_nodup {ids : List SinkId} (distinct : ids.Nodup) : ids.eraseDups = ids := by
  induction ids with
  | nil => exact List.eraseDups_nil
  | cons id ids ih =>
    obtain ⟨fresh, distinct⟩ := List.nodup_cons.mp distinct
    have others : ids.filter (fun other => !other == id) = ids := by
      rw [List.filter_eq_self]
      intro other member
      have apart : other ≠ id := fun same => fresh (same ▸ member)
      simpa using apart
    rw [List.eraseDups_cons, others, ih distinct]

theorem foldl_addSink (l : Logger) (empty : l.sinks = []) (ids : List SinkId) :
    ids.foldl addSink l = { l with sinks := ids.eraseDups } := by
  induction ids using List.reverseRecOn with
  | nil =>
    rw [List.foldl_nil, List.eraseDups_nil, ← empty]
  | append_singleton ids s ih =>
    rw [List.foldl_append, ih, List.foldl_cons, List.foldl_nil, addSink_eq, sinks_addSink,
      eraseDups_concat]

theorem foldl_removeSink (l : Logger) (ids : List SinkId) :
    ids.foldl removeSink l = { l with sinks := l.sinks.filter fun s => s ∉ ids } := by
  induction ids generalizing l with
  | nil => simp
  | cons id ids ih =>
    rw [List.foldl_cons, ih, removeSink]
    simp only [List.filter_filter, List.mem_cons, not_or, Bool.decide_and, Bool.and_comm]

theorem foldl_removeSink_eraseDups (l : Logger) {ids : List SinkId}
    (attached : l.sinks = ids.eraseDups) : ids.foldl removeSink l = l.clearSinks := by
  have none : l.sinks.filter (fun s => s ∉ ids) = [] := by
    rw [List.filter_eq_nil_iff, attached]
    intro s member
    simpa using List.mem_eraseDups.mp member
  rw [foldl_removeSink, none, clearSinks]

end Logger

namespace Hub

/-- A call on the registry. -/
inductive Call where
  | getLogger (name : String)
  | removeLogger (name : String)
  | clearLoggers
  | setLevel (level : Level)
  | addGlobalSink (sink : SinkId)
  | clearGlobalSinks
  | setup (level : Level) (console : Bool) (path : String)
  deriving DecidableEq, Repr

namespace Call

def Removes (name : String) : Call → Prop
  | removeLogger other => other = name
  | clearLoggers => True
  | _ => False

/-- The call changes what loggers are set to. -/
def Configures : Call → Prop
  | setLevel _ => True
  | addGlobalSink _ => True
  | clearGlobalSinks => True
  | setup _ _ _ => True
  | _ => False

instance (name : String) (c : Call) : Decidable (c.Removes name) := by
  cases c <;> simp only [Removes] <;> infer_instance

instance (c : Call) : Decidable c.Configures := by
  cases c <;> simp only [Configures] <;> infer_instance

end Call

def perform (h : Hub) : Call → Hub
  | .getLogger name => (h.getLogger name).1
  | .removeLogger name => h.removeLogger name
  | .clearLoggers => h.clearLoggers
  | .setLevel level => h.setLevel level
  | .addGlobalSink sink => h.addGlobalSink sink
  | .clearGlobalSinks => h.clearGlobalSinks
  | .setup level console path => h.setup level console path

def performAll (h : Hub) (calls : List Call) : Hub := calls.foldl perform h

def registeredAs? (h : Hub) (name : String) : Option Logger :=
  (h.registry.get? name).bind fun id => h.loggers[id]?

def common (h : Hub) (name : String) : Logger :=
  { name, level := h.level, sinks := h.globalSinks.eraseDups }

def Uniform (h : Hub) : Prop :=
  ∀ name id, h.registry.get? name = some id → h.loggers[id]? = some (h.common name)

variable {h : Hub}

theorem uniform_of_empty (empty : h.registry = KeyMap.empty) : h.Uniform := by
  intro name id found
  rw [empty, KeyMap.get?_empty] at found
  cases found

theorem isRegistered_of_get? {name : String} {id : LoggerId}
    (found : h.registry.get? name = some id) : h.isRegistered id = true :=
  List.any_eq_true.mpr ⟨(name, id), Entries.mem_of_find? found, by simp⟩

theorem getElem?_modifyRegistered {name : String} {id : LoggerId}
    (found : h.registry.get? name = some id) (change : Logger → Logger) :
    (h.modifyRegistered change).loggers[id]? = (h.loggers[id]?).map change := by
  simp [modifyRegistered, isRegistered_of_get? found]

theorem getLogger_of_get?_none {name : String} (unknown : h.registry.get? name = none) :
    (h.getLogger name).1 = { h with
      registry := h.registry.insert name h.loggers.length
      loggers := h.loggers ++ [h.common name] } := by
  have made : h.globalSinks.foldl Logger.addSink { name, level := h.level } = h.common name :=
    Logger.foldl_addSink _ rfl h.globalSinks
  simp only [getLogger, unknown, newLogger, made]

def startOver (h : Hub) (level : Level) : Hub := h.clearGlobalSinks.setLevel level

def attach (h : Hub) (target : Target) : Hub :=
  (h.newSink {} target).1.addGlobalSink h.sinks.length

def attachFile (h : Hub) (path : String) : Hub :=
  let opened := RollingFile.openAt h.files path 10485760 5
  { h with files := opened.2 }.attach (.file opened.1)

def setupSinks (h : Hub) (console : Bool) (path : String) : List Sink :=
  let printer : List Sink :=
    if console then [{ format := h.formats.length, target := .stream .standard true }] else []
  let file : List Sink :=
    if path = "" then []
    else [{ format := h.formats.length + printer.length,
            target := .file (RollingFile.openAt h.files path 10485760 5).1 }]
  printer ++ file

theorem setup_eq (h : Hub) (level : Level) (console : Bool) (path : String) :
    h.setup level console path =
      let base := h.startOver level
      let printing := if console then base.attach (.stream .standard true) else base
      if path = "" then printing else printing.attachFile path := rfl

namespace Uniform

theorem lt_length (u : h.Uniform) {name : String} {id : LoggerId}
    (found : h.registry.get? name = some id) : id < h.loggers.length :=
  (List.getElem?_eq_some_iff.mp (u name id found)).1

theorem registeredAs? (u : h.Uniform) {name : String} {id : LoggerId}
    (found : h.registry.get? name = some id) : h.registeredAs? name = some (h.common name) := by
  rw [Hub.registeredAs?, found, Option.bind_some, u name id found]

theorem modifyRegistered (u : h.Uniform) {change : Logger → Logger} {level : Level}
    {sinks : List SinkId}
    (follow : ∀ name, change (h.common name) = { name, level, sinks := sinks.eraseDups }) :
    Uniform { h.modifyRegistered change with level, globalSinks := sinks } := by
  intro name id found
  have registered : h.registry.get? name = some id := found
  have changed := getElem?_modifyRegistered registered change
  rw [u name id registered, Option.map_some, follow] at changed
  exact changed

theorem removeLogger (u : h.Uniform) (name : String) : (h.removeLogger name).Uniform := by
  intro other id found
  rw [Hub.removeLogger, KeyMap.get?_erase] at found
  split at found
  · cases found
  · exact u other id found

theorem clearLoggers (h : Hub) : h.clearLoggers.Uniform := uniform_of_empty rfl

theorem setLevel (u : h.Uniform) (level : Level) : (h.setLevel level).Uniform :=
  u.modifyRegistered fun _ => rfl

theorem addGlobalSink (u : h.Uniform) (sink : SinkId) : (h.addGlobalSink sink).Uniform := by
  apply u.modifyRegistered
  intro name
  rw [Logger.addSink_eq, Logger.sinks_addSink, Logger.eraseDups_concat]
  rfl

theorem clearGlobalSinks (u : h.Uniform) : h.clearGlobalSinks.Uniform := by
  apply u.modifyRegistered
  intro name
  exact Logger.foldl_removeSink_eraseDups (h.common name) rfl

theorem attach (u : h.Uniform) (target : Target) : (h.attach target).Uniform := by
  -- a new sink is nobody's sink yet
  have created : (h.newSink {} target).1.Uniform := u
  exact created.addGlobalSink h.sinks.length

theorem attachFile (u : h.Uniform) (path : String) : (h.attachFile path).Uniform := by
  let opened := RollingFile.openAt h.files path 10485760 5
  have opening : Uniform { h with files := opened.2 } := u
  exact opening.attach (.file opened.1)

theorem setup (u : h.Uniform) (level : Level) (console : Bool) (path : String) :
    (h.setup level console path).Uniform := by
  have base : (h.startOver level).Uniform := u.clearGlobalSinks.setLevel level
  have printing := base.attach (.stream .standard true)
  rw [setup_eq]
  cases console <;> dsimp only <;> split
  · exact base
  · exact base.attachFile path
  · exact printing
  · exact printing.attachFile path

theorem getLogger (u : h.Uniform) (name : String) : (h.getLogger name).1.Uniform := by
  cases known : h.registry.get? name with
  | some id => rwa [Hub.getLogger, known]
  | none =>
    rw [getLogger_of_get?_none known]
    intro other id found
    simp only [KeyMap.get?_insert] at found ⊢
    split at found
    · next same =>
      cases found
      rw [List.getElem?_concat_length, same]
      rfl
    · rw [List.getElem?_append_left (u.lt_length found)]
      exact u other id found

theorem perform (u : h.Uniform) (c : Call) : (h.perform c).Uniform := by
  cases c with
  | getLogger name => exact u.getLogger name
  | removeLogger name => exact u.removeLogger name
  | clearLoggers => exact clearLoggers h
  | setLevel level => exact u.setLevel level
  | addGlobalSink sink => exact u.addGlobalSink sink
  | clearGlobalSinks => exact u.clearGlobalSinks
  | setup level console path => exact u.setup level console path

theorem performAll (u : h.Uniform) (calls : List Call) : (h.performAll calls).Uniform := by
  induction calls generalizing h with
  | nil => exact u
  | cons c calls ih => exact ih (u.perform c)

end Uniform

@[simp] theorem level_startOver (h : Hub) (level : Level) : (h.startOver level).level = level := rfl

@[simp] theorem sinks_startOver (h : Hub) (level : Level) : (h.startOver level).sinks = h.sinks :=
  rfl

@[simp] theorem formats_startOver (h : Hub) (level : Level) :
    (h.startOver level).formats = h.formats := rfl

@[simp] theorem files_startOver (h : Hub) (level : Level) : (h.startOver level).files = h.files :=
  rfl

@[simp] theorem globalSinks_startOver (h : Hub) (level : Level) :
    (h.startOver level).globalSinks = [] := rfl

@[simp] theorem registry_startOver (h : Hub) (level : Level) :
    (h.startOver level).registry = h.registry := rfl

@[simp] theorem level_attach (h : Hub) (target : Target) : (h.attach target).level = h.level := rfl

@[simp] theorem sinks_attach (h : Hub) (target : Target) :
    (h.attach target).sinks = h.sinks ++ [{ format := h.formats.length, target }] := rfl

@[simp] theorem formats_attach (h : Hub) (target : Target) :
    (h.attach target).formats = h.formats ++ [({} : Format)] := rfl

@[simp] theorem files_attach (h : Hub) (target : Target) : (h.attach target).files = h.files := rfl

@[simp] theorem globalSinks_attach (h : Hub) (target : Target) :
    (h.attach target).globalSinks = h.globalSinks ++ [h.sinks.length] := rfl

@[simp] theorem registry_attach (h : Hub) (target : Target) :
    (h.attach target).registry = h.registry := rfl

theorem attachFile_eq (h : Hub) (path : String) :
    h.attachFile path = { h with files := (RollingFile.openAt h.files path 10485760 5).2 }.attach
      (.file (RollingFile.openAt h.files path 10485760 5).1) := rfl

theorem registry_setup (h : Hub) (level : Level) (console : Bool) (path : String) :
    (h.setup level console path).registry = h.registry := by
  rw [setup_eq]
  by_cases empty : path = "" <;> cases console <;> simp [empty, attachFile_eq]

theorem setup_leaves (h : Hub) (level : Level) (console : Bool) (path : String) :
    let s := h.setup level console path
    s.level = level ∧ s.sinks = h.sinks ++ h.setupSinks console path ∧
      s.globalSinks = List.range' h.sinks.length (h.setupSinks console path).length := by
  rw [setup_eq, setupSinks]
  by_cases empty : path = "" <;> cases console <;>
    simp [empty, attachFile_eq, List.range'_succ]

def bare (h : Hub) : Hub := { h with loggers := [], registry := KeyMap.empty }

theorem bare_eq_iff {h h' : Hub} :
    h.bare = h'.bare ↔ ∃ loggers registry, h' = { h with loggers, registry } := by
  constructor
  · intro same
    refine ⟨h'.loggers, h'.registry, ?_⟩
    cases h
    cases h'
    simp only [bare, mk.injEq] at same ⊢
    simp [same]
  · rintro ⟨loggers, registry, rfl⟩
    rfl

theorem bare_perform_of_not_configures {c : Call} (plain : ¬ c.Configures) :
    (h.perform c).bare = h.bare := by
  cases c with
  | getLogger name =>
    rw [perform, getLogger]
    split <;> rfl
  | removeLogger name => rfl
  | clearLoggers => rfl
  | _ => exact absurd trivial plain

theorem bare_startOver_congr {h h' : Hub} (same : h.bare = h'.bare) (level : Level) :
    (h.startOver level).bare = (h'.startOver level).bare := by
  obtain ⟨loggers, registry, rfl⟩ := bare_eq_iff.mp same
  rfl

theorem bare_attach_congr {h h' : Hub} (same : h.bare = h'.bare) (target : Target) :
    (h.attach target).bare = (h'.attach target).bare := by
  obtain ⟨loggers, registry, rfl⟩ := bare_eq_iff.mp same
  rfl

theorem bare_attachFile_congr {h h' : Hub} (same : h.bare = h'.bare) (path : String) :
    (h.attachFile path).bare = (h'.attachFile path).bare := by
  obtain ⟨loggers, registry, rfl⟩ := bare_eq_iff.mp same
  exact bare_attach_congr (bare_eq_iff.mpr ⟨loggers, registry, rfl⟩) _

theorem bare_setup_congr {h h' : Hub} (same : h.bare = h'.bare) (level : Level) (console : Bool)
    (path : String) : (h.setup level console path).bare = (h'.setup level console path).bare := by
  have base := bare_startOver_congr same level
  have printing := bare_attach_congr base (.stream .standard true)
  rw [setup_eq, setup_eq]
  cases console <;> dsimp only <;> split
  · exact base
  · exact bare_attachFile_congr base path
  · exact printing
  · exact bare_attachFile_congr printing path

/-- What a call does to everything but the loggers does not depend on the loggers. -/
theorem bare_perform_congr {h h' : Hub} (same : h.bare = h'.bare) (c : Call) :
    (h.perform c).bare = (h'.perform c).bare := by
  obtain ⟨loggers, registry, rfl⟩ := bare_eq_iff.mp same
  by_cases configures : c.Configures
  · cases c with
    | setLevel level => rfl
    | addGlobalSink sink => rfl
    | clearGlobalSinks => rfl
    | setup level console path => exact bare_setup_congr same level console path
    | _ => cases configures
  · rw [bare_perform_of_not_configures configures, bare_perform_of_not_configures configures, same]

theorem bare_performAll_congr {h h' : Hub} (same : h.bare = h'.bare) (calls : List Call) :
    (h.performAll calls).bare = (h'.performAll calls).bare := by
  induction calls generalizing h h' with
  | nil => exact same
  | cons c calls ih => exact ih (bare_perform_congr same c)

theorem bare_performAll_of_not_configures {calls : List Call}
    (plain : ∀ c ∈ calls, ¬ c.Configures) : (h.performAll calls).bare = h.bare := by
  induction calls generalizing h with
  | nil => rfl
  | cons c calls ih =>
    obtain ⟨first, others⟩ := List.forall_mem_cons.mp plain
    exact (ih others).trans (bare_perform_of_not_configures first)

theorem common_congr {h h' : Hub} (same : h.bare = h'.bare) (name : String) :
    h.common name = h'.common name := by
  have level : h.bare.level = h'.bare.level := by rw [same]
  have sinks : h.bare.globalSinks = h'.bare.globalSinks := by rw [same]
  simp only [bare] at level sinks
  rw [common, common, level, sinks]

theorem get?_getLogger (h : Hub) (name : String) :
    (h.getLogger name).1.registry.get? name = some (h.getLogger name).2 := by
  cases known : h.registry.get? name with
  | some id => simp only [getLogger, known]
  | none => simp only [getLogger, known, newLogger, KeyMap.get?_insert, if_true]

theorem getLogger_of_get? {name : String} {id : LoggerId}
    (found : h.registry.get? name = some id) : h.getLogger name = (h, id) := by
  rw [getLogger, found]

theorem get?_perform {name : String} {id : LoggerId} (found : h.registry.get? name = some id)
    {c : Call} (keeps : ¬ c.Removes name) : (h.perform c).registry.get? name = some id := by
  cases c with
  | getLogger other =>
    by_cases same : other = name
    · subst same
      rw [perform, getLogger_of_get? found]
      exact found
    · rw [perform, getLogger]
      split
      · exact found
      · simpa only [newLogger, KeyMap.get?_insert, if_neg same] using found
  | removeLogger other =>
    have apart : ¬ other = name := keeps
    rw [perform, removeLogger, KeyMap.get?_erase, if_neg apart]
    exact found
  | clearLoggers => exact absurd trivial keeps
  | setLevel level => exact found
  | addGlobalSink sink => exact found
  | clearGlobalSinks => exact found
  | setup level console path =>
    rw [perform, registry_setup]
    exact found

theorem get?_performAll {name : String} {id : LoggerId} (found : h.registry.get? name = some id)
    {calls : List Call} (keep : ∀ c ∈ calls, ¬ c.Removes name) :
    (h.performAll calls).registry.get? name = some id := by
  induction calls generalizing h with
  | nil => exact found
  | cons c calls ih =>
    obtain ⟨first, others⟩ := List.forall_mem_cons.mp keep
    exact ih (get?_perform found first) others

theorem get?_perform_of_removes {name : String} {c : Call} (removes : c.Removes name) :
    (h.perform c).registry.get? name = none := by
  cases c with
  | removeLogger other =>
    have same : other = name := removes
    rw [perform, removeLogger, KeyMap.get?_erase, if_pos same]
  | clearLoggers => rfl
  | _ => cases removes

theorem snd_getLogger_of_get?_none {name : String} (unknown : h.registry.get? name = none) :
    (h.getLogger name).2 = h.loggers.length := by
  rw [getLogger, unknown]
  rfl

theorem loggers_perform_of_removes {name : String} {c : Call} (removes : c.Removes name) :
    (h.perform c).loggers = h.loggers := by
  cases c with
  | removeLogger _ => rfl
  | clearLoggers => rfl
  | _ => cases removes

theorem Uniform.registeredAs?_getLogger (u : h.Uniform) (name : String) :
    (h.perform (.getLogger name)).registeredAs? name = some (h.common name) := by
  have after := (u.getLogger name).registeredAs? (get?_getLogger h name)
  have same := common_congr
    (bare_perform_of_not_configures (h := h) (c := .getLogger name) id) name
  exact after.trans (congrArg some same)

/-- After any calls on the registry, every registered logger has the level of the registry and its
sinks, each of them once. It does not matter whether a logger is asked for before or after further
calls; its name stands for it until it is removed, and for another one from then on. Setting up
leaves just the new sinks with all loggers, those that are there and those that come later. -/
theorem registered_alike {start : Hub} (empty : start.registry = KeyMap.empty)
    (calls : List Call) :
    let h := start.performAll calls
    (∀ name id, h.registry.get? name = some id →
      h.loggers[id]? = some { name, level := h.level, sinks := h.globalSinks.eraseDups }) ∧
    (∀ name changes, (∀ c ∈ changes, ¬ c.Removes name) →
      ∃ l, ((h.perform (.getLogger name)).performAll changes).registeredAs? name = some l ∧
        ((h.performAll changes).perform (.getLogger name)).registeredAs? name = some l) ∧
    (∀ name id, h.registry.get? name = some id →
      (∀ more, (∀ c ∈ more, ¬ c.Removes name) →
        (h.performAll more).getLogger name = (h.performAll more, id)) ∧
      ∀ c, c.Removes name → ((h.perform c).getLogger name).2 ≠ id) ∧
    ∀ level console path,
      let s := h.setup level console path
      s.sinks = h.sinks ++ h.setupSinks console path ∧
      ∀ more, (∀ c ∈ more, ¬ c.Configures) → ∀ name,
        ((s.performAll more).perform (.getLogger name)).registeredAs? name = some
          { name, level,
            sinks := List.range' h.sinks.length (h.setupSinks console path).length } := by
  intro h
  have u : h.Uniform := (uniform_of_empty empty).performAll calls
  refine ⟨u, ?_, ?_, ?_⟩
  · intro name changes keep
    have early := ((u.getLogger name).performAll changes).registeredAs?
      (get?_performAll (get?_getLogger h name) keep)
    have late := (u.performAll changes).registeredAs?_getLogger name
    have same := bare_performAll_congr
      (bare_perform_of_not_configures (h := h) (c := .getLogger name) id) changes
    rw [common_congr same.symm] at late
    exact ⟨_, early, late⟩
  · intro name id found
    constructor
    · intro more keep
      exact getLogger_of_get? (get?_performAll found keep)
    · intro c removes
      rw [snd_getLogger_of_get?_none (get?_perform_of_removes removes),
        loggers_perform_of_removes removes]
      exact Nat.ne_of_gt (u.lt_length found)
  · intro level console path s
    obtain ⟨hlevel, hsinks, hglobal⟩ := h.setup_leaves level console path
    refine ⟨hsinks, ?_⟩
    intro more plain name
    have us := (u.setup level console path).performAll more
    have settings : s.common name =
        { name, level,
          sinks := List.range' h.sinks.length (h.setupSinks console path).length } := by
      rw [common, hlevel, hglobal, Logger.eraseDups_of_nodup List.nodup_range']
    rw [us.registeredAs?_getLogger, common_congr (bare_performAll_of_not_configures plain),
      settings]

/-- A sink is added twice, and logging is set up twice. -/
theorem registered_alike_repeated :
    let sinks : List Sink :=
      [{ format := 0, target := .stream (.named "a") false },
       { format := 1, target := .stream (.named "b") true }]
    let start : Hub := { files := { current := [] }, formats := [{}, {}], sinks }
    let calls : List Call :=
      [.getLogger "early", .addGlobalSink 1, .addGlobalSink 0, .addGlobalSink 1,
       .setLevel .debug, .getLogger "late"]
    let h := start.performAll calls
    let twice := (h.setup .info true "").setup .error true ""
    start.registry = KeyMap.empty ∧ h.globalSinks = [1, 0, 1] ∧
      h.registeredAs? "early" = some { name := "early", level := .debug, sinks := [1, 0] } ∧
      h.registeredAs? "late" = some { name := "late", level := .debug, sinks := [1, 0] } ∧
      (twice.perform (.getLogger "late")).registeredAs? "late" =
        some { name := "late", level := .error, sinks := [3] } ∧
      (twice.perform (.getLogger "later")).registeredAs? "later" =
        some { name := "later", level := .error, sinks := [3] } := by
  intro sinks start calls h twice
  have empty : start.registry = KeyMap.empty := rfl
  have early : h.registry.get? "early" = some 0 := by decide
  have late : h.registry.get? "late" = some 1 := by decide
  have global : h.globalSinks = [1, 0, 1] := rfl
  have level : h.level = .debug := rfl
  have distinct : [1, 0, 1].eraseDups = [1, 0] := by decide
  obtain ⟨alike, -, -, -⟩ := registered_alike empty calls
  obtain ⟨-, -, -, again⟩ := registered_alike empty (calls ++ [.setup .info true ""])
  obtain ⟨-, exact⟩ := again .error true ""
  have number : (start.performAll (calls ++ [.setup .info true ""])).sinks.length = 3 := rfl
  refine ⟨empty, global, ?_, ?_, ?_, ?_⟩
  · rw [registeredAs?, early, Option.bind_some, alike "early" 0 early, global, level, distinct]
  · rw [registeredAs?, late, Option.bind_some, alike "late" 1 late, global, level, distinct]
  · have own := exact [] (by simp) "late"
    rw [number] at own
    exact own
  · have own := exact [] (by simp) "later"
    rw [number] at own
    exact own

end Hub

end WireRecords.Log
