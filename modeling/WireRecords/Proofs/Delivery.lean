import WireRecords.Proofs.LastWriter
import WireRecords.Proofs.Uniformity

/-!
# Delivery of entries

A logged entry goes once to each sink that is attached to the logger and lets it pass, in the order
in which the sinks were attached. What is attached at that moment, and what passes, is told by the
calls before: a sink is attached if it was added and not removed since, and a level is the one that
was set last.
-/

namespace WireRecords.Log

namespace Logger

/-- A call on a logger or on a sink. A message is logged at some time and by some thread. -/
inductive Call where
  | addSink (sink : SinkId)
  | removeSink (sink : SinkId)
  | clearSinks
  | setLevel (level : Level)
  | setMinLevel (sink : SinkId) (level : Level)
  | log (now : Moment) (thread : String) (message : Hub.Message)
  deriving DecidableEq, Repr

/-- A message that is logged, and the calls before it. -/
structure Logged where
  before : List Call
  now : Moment
  thread : String
  message : Hub.Message

def Logged.entry (d : Logged) (name : String) : Entry where
  level := d.message.level
  logger := name
  message := d.message.text
  time := d.now
  thread := d.thread
  file := d.message.file
  line := d.message.line
  function := d.message.function
  metadata := d.message.metadata

namespace Call

def added : Call → List SinkId
  | addSink s => [s]
  | _ => []

def Detaches (s : SinkId) : Call → Prop
  | removeSink other => s = other
  | clearSinks => True
  | _ => False

instance (s : SinkId) (c : Call) : Decidable (c.Detaches s) := by
  cases c <;> simp only [Detaches] <;> infer_instance

def change : Call → Logger → Logger
  | addSink s, l => l.addSink s
  | removeSink s, l => l.removeSink s
  | clearSinks, l => l.clearSinks
  | setLevel level, l => { l with level }
  | _, l => l

def levelSet? : Call → Option Level
  | setLevel level => some level
  | _ => none

def minLevelSet? (s : SinkId) : Call → Option Level
  | setMinLevel other level => if other = s then some level else none
  | _ => none

def logged (before : List Call) : Call → List Logged
  | log now thread message => [⟨before, now, thread, message⟩]
  | _ => []

end Call

/-- The sinks that are added and not removed later, once for every time. -/
def kept : List Call → List SinkId
  | [] => []
  | c :: calls => c.added.filter (fun s => ∀ later ∈ calls, ¬ later.Detaches s) ++ kept calls

def attachedAfter (first : List SinkId) (calls : List Call) : List SinkId :=
  (kept (first.map .addSink ++ calls)).eraseDups

def levelAfter (first : Level) (calls : List Call) : Level :=
  (calls.filterMap Call.levelSet?).getLastD first

def minLevelAfter (first : Level) (s : SinkId) (calls : List Call) : Level :=
  (calls.filterMap (Call.minLevelSet? s)).getLastD first

def loggedFrom (before : List Call) : List Call → List Logged
  | [] => []
  | c :: calls => c.logged before ++ loggedFrom (before ++ [c]) calls

def after (l : Logger) (calls : List Call) : Logger :=
  { l with level := levelAfter l.level calls, sinks := attachedAfter l.sinks calls }

theorem kept_concat (calls : List Call) (c : Call) :
    kept (calls ++ [c]) = (kept calls).filter (fun s => ¬ c.Detaches s) ++ c.added := by
  induction calls with
  | nil => simp [kept]
  | cons first calls ih =>
    rw [List.cons_append, kept, ih, kept, List.filter_append, List.filter_filter, List.append_assoc]
    congr 2
    funext s
    simp [or_imp, forall_and, and_comm]

theorem mem_kept_iff {calls : List Call} {s : SinkId} :
    s ∈ kept calls ↔ LastWhere (· = .addSink s) (fun c => ¬ c.Detaches s) calls := by
  induction calls using List.reverseRecOn with
  | nil => simp [kept, LastWhere]
  | append_singleton calls c ih =>
    have added : s ∈ c.added ↔ c = .addSink s := by
      cases c <;> simp [Call.added, eq_comm]
    rw [kept_concat, lastWhere_concat_iff, ← ih, List.mem_append, List.mem_filter, added, or_comm,
      and_comm, decide_eq_true_eq]

theorem kept_addSink (ids : List SinkId) : kept (ids.map .addSink) = ids := by
  induction ids with
  | nil => rfl
  | cons id ids ih =>
    have stays : ∀ later ∈ ids.map Call.addSink, ¬ later.Detaches id := by
      intro later member
      obtain ⟨other, -, rfl⟩ := List.mem_map.mp member
      exact fun detaches => detaches
    rw [List.map_cons, kept, ih, Call.added, List.filter_eq_self.mpr]
    · rfl
    · intro s member
      rw [List.mem_singleton.mp member]
      exact decide_eq_true stays

theorem nodup_eraseDups (ids : List SinkId) : ids.eraseDups.Nodup := by
  induction ids using List.reverseRecOn with
  | nil => exact List.nodup_nil
  | append_singleton ids s ih =>
    rw [eraseDups_concat]
    by_cases known : s ∈ ids.eraseDups
    · rwa [if_pos known]
    · rw [if_neg known]
      exact List.nodup_append.mpr ⟨ih, List.nodup_singleton s, by
        rintro a here b there rfl
        exact known (List.mem_singleton.mp there ▸ here)⟩

theorem eraseDups_filter (stays : SinkId → Bool) (ids : List SinkId) :
    (ids.filter stays).eraseDups = ids.eraseDups.filter stays := by
  induction ids using List.reverseRecOn with
  | nil => rfl
  | append_singleton ids s ih =>
    rw [List.filter_append, eraseDups_concat]
    by_cases stay : stays s = true
    · rw [List.filter_cons_of_pos stay, List.filter_nil, eraseDups_concat, ih]
      by_cases known : s ∈ ids.eraseDups
      · rw [if_pos known, if_pos (List.mem_filter.mpr ⟨known, stay⟩)]
      · have fresh : s ∉ ids.eraseDups.filter stays := fun member =>
          known (List.mem_filter.mp member).1
        rw [if_neg known, if_neg fresh, List.filter_append, List.filter_cons_of_pos stay,
          List.filter_nil]
    · rw [List.filter_cons_of_neg stay, List.filter_nil, List.append_nil, ih]
      by_cases known : s ∈ ids.eraseDups
      · rw [if_pos known]
      · rw [if_neg known, List.filter_append, List.filter_cons_of_neg stay, List.filter_nil,
          List.append_nil]

theorem nodup_attachedAfter (first : List SinkId) (calls : List Call) :
    (attachedAfter first calls).Nodup := nodup_eraseDups _

theorem attachedAfter_nil {first : List SinkId} (distinct : first.Nodup) :
    attachedAfter first [] = first := by
  rw [attachedAfter, List.append_nil, kept_addSink, eraseDups_of_nodup distinct]

theorem filter_keeps {c : Call} (keeps : ∀ s, ¬ c.Detaches s) (ids : List SinkId) :
    ids.filter (fun s => ¬ c.Detaches s) = ids :=
  List.filter_eq_self.mpr fun s _ => decide_eq_true (keeps s)

theorem attachedAfter_addSink (first : List SinkId) (calls : List Call) (s : SinkId) :
    attachedAfter first (calls ++ [.addSink s]) =
      if s ∈ attachedAfter first calls then attachedAfter first calls
      else attachedAfter first calls ++ [s] := by
  rw [attachedAfter, ← List.append_assoc, kept_concat, filter_keeps fun _ => id]
  exact eraseDups_concat _ s

theorem attachedAfter_of_added_nil {c : Call} (adds : c.added = []) (first : List SinkId)
    (calls : List Call) : attachedAfter first (calls ++ [c]) =
      (attachedAfter first calls).filter fun s => ¬ c.Detaches s := by
  rw [attachedAfter, ← List.append_assoc, kept_concat, adds, List.append_nil, eraseDups_filter]
  rfl

theorem getLastD_filterMap_concat (set? : Call → Option Level) (first : Level) (calls : List Call)
    (c : Call) : ((calls ++ [c]).filterMap set?).getLastD first =
      (set? c).getD ((calls.filterMap set?).getLastD first) := by
  rw [List.filterMap_append, List.filterMap_cons, List.filterMap_nil]
  cases set? c with
  | none => exact congrArg (List.getLastD · first) (List.append_nil _)
  | some level => exact List.getLastD_concat

theorem loggedFrom_concat (before calls : List Call) (c : Call) :
    loggedFrom before (calls ++ [c]) = loggedFrom before calls ++ c.logged (before ++ calls) := by
  induction calls generalizing before with
  | nil => simp [loggedFrom]
  | cons first calls ih =>
    rw [List.cons_append, loggedFrom, ih, loggedFrom, List.append_assoc, List.append_assoc]
    rfl

theorem after_concat (l : Logger) (calls : List Call) (c : Call) :
    l.after (calls ++ [c]) = c.change (l.after calls) := by
  have level : levelAfter l.level (calls ++ [c]) = c.levelSet?.getD (levelAfter l.level calls) :=
    getLastD_filterMap_concat Call.levelSet? l.level calls c
  rw [after, level]
  cases c with
  | addSink s =>
    rw [attachedAfter_addSink, Call.change, addSink_eq, sinks_addSink]
    rfl
  | removeSink s =>
    rw [attachedAfter_of_added_nil rfl]
    rfl
  | clearSinks =>
    rw [attachedAfter_of_added_nil rfl]
    simp only [Call.Detaches, not_true, decide_false, List.filter_false]
    rfl
  | _ =>
    rw [attachedAfter_of_added_nil rfl, filter_keeps fun _ => id]
    rfl

end Logger

theorem map_modify {α β : Type} {f : α → α} {g : α → β} {f' : β → β}
    (same : ∀ a, g (f a) = f' (g a)) (items : List α) (i : Nat) :
    (items.modify i f).map g = (items.map g).modify i f' := by
  apply List.ext_getElem?
  intro j
  simp only [List.getElem?_map, List.getElem?_modify, Option.map_eq_map, Option.map_map]
  by_cases here : i = j
  · simp only [here, if_true, Function.comp_def, same]
  · simp only [here, if_false, Function.comp_def]

theorem map_modify_of_same {α β : Type} {f : α → α} {g : α → β} (same : ∀ a, g (f a) = g a)
    (items : List α) (i : Nat) : (items.modify i f).map g = items.map g := by
  have same' : ∀ a, g (f a) = id (g a) := same
  rw [map_modify same', List.modify_id]

namespace Hub

open Logger (attachedAfter levelAfter minLevelAfter loggedFrom)

def call (h : Hub) (id : LoggerId) : Logger.Call → Hub
  | .addSink s => h.modifyLogger id fun l => l.addSink s
  | .removeSink s => h.modifyLogger id fun l => l.removeSink s
  | .clearSinks => h.modifyLogger id Logger.clearSinks
  | .setLevel level => h.modifyLogger id fun l => { l with level }
  | .setMinLevel s level => h.modifySink s fun t => { t with minLevel := level }
  | .log now thread message => { h with now, thread }.log id message

def callAll (h : Hub) (id : LoggerId) (calls : List Logger.Call) : Hub :=
  calls.foldl (fun h c => h.call id c) h

/-- The message reaches the sink: it is attached, and the level passes both thresholds. -/
def Reaches (start : Hub) (l : Logger) (s : SinkId) (d : Logger.Logged) : Prop :=
  s ∈ attachedAfter l.sinks d.before ∧ d.message.level ≠ .off ∧
    levelAfter l.level d.before ≤ d.message.level ∧
    ∃ t ∈ start.sinks[s]?, minLevelAfter t.minLevel s d.before ≤ d.message.level

instance (start : Hub) (l : Logger) (s : SinkId) (d : Logger.Logged) :
    Decidable (start.Reaches l s d) := inferInstanceAs (Decidable (_ ∧ _ ∧ _ ∧ _))

def copies (start : Hub) (l : Logger) (d : Logger.Logged) : List (SinkId × Entry) :=
  ((attachedAfter l.sinks d.before).filter fun s => start.Reaches l s d).map fun s =>
    (s, d.entry l.name)

def deliveries (start : Hub) (l : Logger) (calls : List Logger.Call) : List (SinkId × Entry) :=
  (loggedFrom [] calls).flatMap (start.copies l)

def writeAll (h : Hub) (writes : List (SinkId × Entry)) : Hub :=
  writes.foldl (fun h w => h.write w.1 w.2) h

/-- The hub apart from its loggers, the thresholds of its sinks and the clock. -/
def output (h : Hub) : Hub :=
  { h with loggers := [], sinks := h.sinks.map fun s => { s with minLevel := .trace },
           now := { seconds := 0 }, thread := "" }

@[simp] theorem printed_output (h : Hub) : h.output.printed = h.printed := rfl

theorem output_changeFile (h : Hub) (s : SinkId)
    (change : RollingFile → FileSystem → RollingFile × FileSystem) :
    (h.changeFile s change).output = h.output.changeFile s change := by
  have found : (h.output.sinks[s]?).map Sink.target = (h.sinks[s]?).map Sink.target := by
    simp [output, Function.comp_def]
  rw [changeFile, changeFile, found]
  cases (h.sinks[s]?).map Sink.target with
  | none => rfl
  | some target =>
    cases target with
    | stream _ _ => rfl
    | file f =>
      simp only [modifySink, output]
      rw [map_modify]
      intro t
      rfl

theorem output_write (h : Hub) (s : SinkId) (e : Entry) :
    (h.write s e).output = h.output.write s e := by
  have found : h.output.sinks[s]? = (h.sinks[s]?).map fun s => { s with minLevel := .trace } := by
    simp [output]
  rw [write, write, found]
  cases h.sinks[s]? with
  | none => rfl
  | some t =>
    rw [Option.map_some]
    dsimp only
    cases t.target with
    | stream stream colored => rfl
    | file f => exact h.output_changeFile s _

theorem output_writeAll (h : Hub) (writes : List (SinkId × Entry)) :
    (h.writeAll writes).output = h.output.writeAll writes := by
  induction writes generalizing h with
  | nil => rfl
  | cons w writes ih =>
    rw [writeAll, List.foldl_cons, ← writeAll, ih, output_write]
    rfl

theorem writeAll_append (h : Hub) (writes more : List (SinkId × Entry)) :
    h.writeAll (writes ++ more) = (h.writeAll writes).writeAll more := List.foldl_append

theorem settings_changeFile (h : Hub) (s : SinkId)
    (change : RollingFile → FileSystem → RollingFile × FileSystem) :
    (h.changeFile s change).loggers = h.loggers ∧
      (h.changeFile s change).sinks.map Sink.minLevel = h.sinks.map Sink.minLevel := by
  rw [changeFile]
  split
  · refine ⟨rfl, ?_⟩
    apply map_modify_of_same
    intro t
    rfl
  · exact ⟨rfl, rfl⟩

theorem settings_write (h : Hub) (s : SinkId) (e : Entry) :
    (h.write s e).loggers = h.loggers ∧
      (h.write s e).sinks.map Sink.minLevel = h.sinks.map Sink.minLevel := by
  rw [write]
  cases h.sinks[s]? with
  | none => exact ⟨rfl, rfl⟩
  | some t =>
    dsimp only
    cases t.target with
    | stream stream colored => exact ⟨rfl, rfl⟩
    | file f => exact h.settings_changeFile s _

theorem settings_writeAll (h : Hub) (writes : List (SinkId × Entry)) :
    (h.writeAll writes).loggers = h.loggers ∧
      (h.writeAll writes).sinks.map Sink.minLevel = h.sinks.map Sink.minLevel := by
  induction writes generalizing h with
  | nil => exact ⟨rfl, rfl⟩
  | cons w writes ih =>
    obtain ⟨loggers, limits⟩ := ih (h.write w.1 w.2)
    obtain ⟨loggers', limits'⟩ := h.settings_write w.1 w.2
    exact ⟨loggers.trans loggers', limits.trans limits'⟩

theorem log_eq_writeAll (h : Hub) (id : LoggerId) (m : Message) :
    h.log id m = h.writeAll ((h.recipients id m.level).map fun s => (s, h.entryOf id m)) := by
  rw [log, writeAll, List.foldl_map]

theorem loggers_call (h : Hub) (id : LoggerId) (c : Logger.Call) :
    (h.call id c).loggers[id]? = (h.loggers[id]?).map c.change := by
  have changed (change : Logger → Logger) :
      (h.modifyLogger id change).loggers[id]? = (h.loggers[id]?).map change := by
    simp [modifyLogger]
  cases c with
  | setMinLevel s level => exact Option.map_id'.symm
  | log now thread m =>
    rw [call, log_eq_writeAll, (settings_writeAll _ _).1]
    exact Option.map_id'.symm
  | _ => exact changed _

theorem minLevel_call (h : Hub) (id : LoggerId) (c : Logger.Call) (s : SinkId) :
    ((h.call id c).sinks[s]?).map Sink.minLevel =
      (h.sinks[s]?).map fun t => (c.minLevelSet? s).getD t.minLevel := by
  cases c with
  | setMinLevel s' level =>
    simp only [call, modifySink, List.getElem?_modify, Option.map_eq_map, Option.map_map,
      Logger.Call.minLevelSet?]
    by_cases same : s' = s
    · simp only [same, if_true, Option.getD_some, Function.comp_def]
    · simp only [same, if_false, Option.getD_none, Function.comp_def]
  | log now thread m =>
    rw [call, log_eq_writeAll, ← List.getElem?_map, (settings_writeAll _ _).2, List.getElem?_map]
    rfl
  | _ => rfl

theorem output_call (h : Hub) (id : LoggerId) {c : Logger.Call} (silent : c.logged [] = []) :
    (h.call id c).output = h.output := by
  cases c with
  | setMinLevel s level =>
    have sinks : (h.sinks.modify s fun t => { t with minLevel := level }).map
        (fun t => { t with minLevel := .trace }) =
          h.sinks.map fun t => { t with minLevel := .trace } := by
      apply map_modify_of_same
      intro t
      rfl
    simp only [call, output, modifySink, sinks]
  | log now thread m => cases silent
  | _ => rfl

theorem deliveries_concat (start : Hub) (l : Logger) (calls : List Logger.Call)
    (c : Logger.Call) : start.deliveries l (calls ++ [c]) =
      start.deliveries l calls ++ (c.logged calls).flatMap (start.copies l) := by
  rw [deliveries, Logger.loggedFrom_concat, List.flatMap_append, List.nil_append]
  rfl

structure After (start : Hub) (id : LoggerId) (l : Logger) (calls : List Logger.Call)
    (h : Hub) : Prop where
  logger : h.loggers[id]? = some (l.after calls)
  minLevel : ∀ s, (h.sinks[s]?).map Sink.minLevel =
    (start.sinks[s]?).map fun t => minLevelAfter t.minLevel s calls
  output : h.output = (start.writeAll (start.deliveries l calls)).output

namespace After

variable {start h : Hub} {id : LoggerId} {l : Logger} {calls : List Logger.Call}

theorem takes (a : After start id l calls h) (level : Level) (s : SinkId) :
    h.takes level s = decide
      (∃ t ∈ start.sinks[s]?, minLevelAfter t.minLevel s calls ≤ level) := by
  have minLevel := a.minLevel s
  rw [Hub.takes]
  cases found : h.sinks[s]? with
  | none =>
    rw [found] at minLevel
    simp [Option.map_eq_none_iff.mp minLevel.symm]
  | some t =>
    rw [found] at minLevel
    obtain ⟨first, found', same⟩ := Option.map_eq_some_iff.mp minLevel.symm
    simp [found', same]

theorem recipients (a : After start id l calls h) (now : Moment) (thread : String)
    (m : Message) : h.recipients id m.level = (attachedAfter l.sinks calls).filter fun s =>
      start.Reaches l s ⟨calls, now, thread, m⟩ := by
  have opened : (l.after calls).passes m.level = true ↔
      m.level ≠ .off ∧ levelAfter l.level calls ≤ m.level := by
    rw [Logger.passes, Bool.and_eq_true, decide_eq_true_iff, decide_eq_true_iff]
    rfl
  rw [Hub.recipients, a.logger]
  by_cases passes : m.level ≠ .off ∧ levelAfter l.level calls ≤ m.level
  · refine (if_pos (opened.mpr passes)).trans (List.filter_congr ?_)
    intro s member
    have attached : s ∈ attachedAfter l.sinks calls := member
    rw [a.takes, decide_eq_decide]
    exact ⟨fun low => ⟨attached, passes.1, passes.2, low⟩, fun reaches => reaches.2.2.2⟩
  · refine (if_neg (mt opened.mp passes)).trans (List.filter_eq_nil_iff.mpr ?_).symm
    intro s member reaches
    obtain ⟨-, ordinary, low, -⟩ := of_decide_eq_true reaches
    exact passes ⟨ordinary, low⟩

theorem log (a : After start id l calls h) (now : Moment) (thread : String) (m : Message) :
    ({ h with now, thread }.log id m).output =
      ({ h with now, thread }.writeAll (start.copies l ⟨calls, now, thread, m⟩)).output := by
  have entry : { h with now, thread }.entryOf id m =
      (Logger.Logged.mk calls now thread m).entry l.name := by
    rw [entryOf, a.logger]
    rfl
  have recipients : { h with now, thread }.recipients id m.level = _ := a.recipients now thread m
  rw [log_eq_writeAll, entry, recipients]
  rfl

theorem call (a : After start id l calls h) (c : Logger.Call) :
    After start id l (calls ++ [c]) (h.call id c) where
  logger := by rw [loggers_call, a.logger, Option.map_some, Logger.after_concat]
  minLevel s := by
    have before := congrArg (Option.map (c.minLevelSet? s).getD) (a.minLevel s)
    rw [Option.map_map, Option.map_map] at before
    rw [minLevel_call]
    simp only [minLevelAfter, Logger.getLastD_filterMap_concat]
    exact before
  output := by
    rw [deliveries_concat, writeAll_append, output_writeAll, ← a.output]
    cases c with
    | log now thread m =>
      rw [Hub.call, a.log, output_writeAll, Logger.Call.logged, List.flatMap_singleton]
      rfl
    | _ => exact output_call h id rfl

theorem callAll (there : start.loggers[id]? = some l) (distinct : l.sinks.Nodup)
    (calls : List Logger.Call) : After start id l calls (start.callAll id calls) := by
  induction calls using List.reverseRecOn with
  | nil =>
    refine ⟨?_, fun s => rfl, rfl⟩
    rw [Logger.after, Logger.attachedAfter_nil distinct]
    exact there
  | append_singleton calls c ih =>
    rw [Hub.callAll, List.foldl_append]
    exact ih.call c

end After

theorem sent_to {ids : List SinkId} (distinct : ids.Nodup) (e : Entry) (s : SinkId) :
    ((ids.map fun t => (t, e)).filter fun w => w.1 = s).map Prod.snd =
      if s ∈ ids then [e] else [] := by
  have own : ((ids.map fun t => (t, e)).filter fun w => w.1 = s).map Prod.snd =
      (ids.filter fun t => t = s).map fun _ => e := by
    rw [List.filter_map, List.map_map]
    rfl
  rw [own, List.filter_eq]
  by_cases member : s ∈ ids
  · rw [if_pos member, List.count_eq_one_of_mem distinct member]
    rfl
  · rw [if_neg member, List.count_eq_zero_of_not_mem member]
    rfl

theorem copies_to (start : Hub) (l : Logger) (d : Logger.Logged) (s : SinkId) :
    ((start.copies l d).filter fun w => w.1 = s).map Prod.snd =
      if start.Reaches l s d then [d.entry l.name] else [] := by
  have distinct := (Logger.nodup_attachedAfter l.sinks d.before).filter fun s => start.Reaches l s d
  have reached : s ∈ (attachedAfter l.sinks d.before).filter (fun s => start.Reaches l s d) ↔
      start.Reaches l s d := by
    rw [List.mem_filter, decide_eq_true_iff]
    exact ⟨fun both => both.2, fun reaches => ⟨reaches.1, reaches⟩⟩
  rw [copies, sent_to distinct]
  exact if_congr reached rfl rfl

theorem deliveries_to (start : Hub) (l : Logger) (calls : List Logger.Call) (s : SinkId) :
    ((start.deliveries l calls).filter fun w => w.1 = s).map Prod.snd =
      ((loggedFrom [] calls).filter fun d => start.Reaches l s d).map fun d => d.entry l.name := by
  rw [deliveries]
  induction loggedFrom [] calls with
  | nil => rfl
  | cons d logged ih =>
    rw [List.flatMap_cons, List.filter_append, List.map_append, ih, copies_to, List.filter_cons]
    by_cases reaches : start.Reaches l s d
    · simp only [reaches, if_true, decide_true, List.map_cons, List.singleton_append]
    · simp only [reaches, if_false, decide_false, Bool.false_eq_true, List.nil_append]

/-- After any calls the attached sinks are those that were added and not removed since, each of them
once. A message that is logged then is written once to each of them that lets it pass, in their
order. So the entries that a sink gets in a run are those of the messages that passed both
thresholds while it was attached. -/
theorem callAll_delivers {start : Hub} {id : LoggerId} {l : Logger}
    (there : start.loggers[id]? = some l) (distinct : l.sinks.Nodup) (calls : List Logger.Call) :
    let h := start.callAll id calls
    let attached := attachedAfter l.sinks calls
    h.loggers[id]? = some { l with level := levelAfter l.level calls, sinks := attached } ∧
    attached.Nodup ∧
    (∀ s, s ∈ attached ↔ LastWhere (· = .addSink s) (fun c => ¬ c.Detaches s)
      (l.sinks.map .addSink ++ calls)) ∧
    (∀ now thread m, (h.call id (.log now thread m)).output =
      (h.writeAll ((attached.filter fun s => start.Reaches l s ⟨calls, now, thread, m⟩).map
        fun s => (s, (Logger.Logged.mk calls now thread m).entry l.name))).output) ∧
    h.output = (start.writeAll (start.deliveries l calls)).output ∧
    ∀ s, ((start.deliveries l calls).filter fun w => w.1 = s).map Prod.snd =
      ((loggedFrom [] calls).filter fun d => start.Reaches l s d).map fun d => d.entry l.name := by
  intro h attached
  have a := After.callAll there distinct calls
  refine ⟨a.logger, Logger.nodup_attachedAfter _ _, ?_, ?_, a.output, start.deliveries_to l calls⟩
  · intro s
    exact List.mem_eraseDups.trans Logger.mem_kept_iff
  · intro now thread m
    rw [Hub.call, a.log, output_writeAll, output_writeAll]
    rfl

/-- A sink is added twice, and again after it was removed, when it comes last. Its threshold and the
logger's are set in between. -/
theorem callAll_delivers_readded :
    let plain : Format := { timePattern := "T" }
    let start : Hub :=
      { files := { current := [] }, formats := [plain, plain],
        sinks := [{ format := 0, target := .stream (.named "a") false },
          { format := 1, target := .stream (.named "b") false }],
        loggers := [{ name := "n" }] }
    let say (level : Level) (text : String) : Logger.Call :=
      .log { seconds := 0 } "" { level, text }
    let calls : List Logger.Call :=
      [.addSink 0, .addSink 1, .addSink 0, say .debug "1", say .off "2", say .info "3",
       .removeSink 0, say .info "4", .addSink 0, .setMinLevel 1 .error, .setLevel .debug,
       say .debug "5", .setMinLevel 1 .trace, say .critical "6"]
    let h := start.callAll 0 calls
    start.loggers[0]? = some { name := "n" } ∧
      h.loggers[0]? = some { name := "n", level := .debug, sinks := [1, 0] } ∧
      h.printed = [(.named "a", "T | INFO | n | 3\n"), (.named "b", "T | INFO | n | 3\n"),
        (.named "b", "T | INFO | n | 4\n"), (.named "a", "T | DEBUG | n | 5\n"),
        (.named "b", "T | CRIT | n | 6\n"), (.named "a", "T | CRIT | n | 6\n")] := by
  intro plain start say calls h
  have there : start.loggers[0]? = some { name := "n" } := rfl
  obtain ⟨logger, -, -, -, output, -⟩ := callAll_delivers there List.nodup_nil calls
  have printed : h.printed = (start.writeAll (start.deliveries { name := "n" } calls)).printed := by
    rw [← printed_output, output, printed_output]
  refine ⟨there, logger.trans ?_, printed.trans ?_⟩
  · decide +kernel
  · decide +kernel

end Hub

end WireRecords.Log
