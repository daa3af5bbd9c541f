import SiteConfig.Command.Run
import SiteConfig.Proofs.Flags
import SiteConfig.Proofs.Handles
import SiteConfig.Proofs.Saving

/-!
What a run does to the files. All steps of a command but the last only look at them, so that a run
that fails or lists leaves them alone; and the last step of a dry run shows what that of the other
would write.
-/

namespace SiteConfig

/-! The path of a config is the one that it was opened by. -/

namespace Document

theorem Edited.path {list : NodeId} {d d' : Document} (h : Edited list d d') :
    d'.path = d.path := by
  induction h with
  | refl => rfl
  | tail _ hs ih => exact hs.reshaped.path.trans ih

theorem path_locate (d : Document) : (d.perform .locate).2.path = d.path := by
  rcases perform_locate d with ⟨e, d', hp, hs⟩ | ⟨_, _, _, _, -, -, -, hp⟩ | hp
  · rw [hp]
    exact hs.path
  · rw [hp]
  · rw [hp]
    rfl

theorem path_plugins {d : Document} {config : NodeId} (hc : d.Issued config) :
    (d.perform (.plugins config)).2.path = d.path := by
  rcases perform_plugins hc with ⟨e, d', hp, hs⟩ | ⟨_, _, _, -, -, hp⟩ | ⟨_, _, -, -, hp⟩
  · rw [hp]
    exact hs.path
  · rw [hp]
  · rw [hp]
    rfl

theorem path_handles {d d' : Document} {config list : NodeId} (hd : d.Sound)
    (h : d.perform Editor.handles = (.ok (config, list), d')) : d'.path = d.path := by
  have hlocated := path_locate d
  simp only [Editor.handles, perform_bind] at h
  rcases hlocate : d.perform .locate with ⟨e | c, d₁⟩
  · rw [hlocate] at h
    cases h
  obtain ⟨-, -, properties, dangling, hobject⟩ := settled_locate hd hlocate
  have hlisted := path_plugins (issued_of_expr_object hobject)
  rw [hlocate] at h hlocated
  simp only at h hlocated
  rcases hplugins : d₁.perform (.plugins c) with ⟨e | l, d₂⟩
  · rw [hplugins] at h
    cases h
  · rw [hplugins] at h hlisted
    cases h
    exact hlisted.trans hlocated

theorem path_ofSource {source path : String} {d : Document}
    (h : ofSource source path = .ok d) : d.path = path := by
  unfold ofSource at h
  split at h
  · cases h
    rfl
  · cases h

end Document

namespace Editor
open Document

/-- A session on the config at `path`. -/
def IsAt (e : Editor) (path : String) : Prop :=
  e.Reached ∧ e.document.path = path

theorem isAt_ofDocument {source path : String} {d : Document} {e : Editor}
    (hd : Document.ofSource source path = .ok d) (h : ofDocument d = .ok e) : e.IsAt path := by
  have hopened : ofSource source path = .ok e := by rw [ofSource, hd, ok_bind, h]
  refine ⟨.opened hopened, ?_⟩
  unfold ofDocument at h
  rcases hp : d.perform handles with ⟨err | ⟨config, list⟩, d'⟩
  · rw [hp] at h
    cases h
  · rw [hp] at h
    cases h
    exact (path_handles (sound_ofSource hd) hp).trans (path_ofSource hd)

variable {e : Editor} {path : String}

theorem IsAt.setTutorial (h : e.IsAt path) (index : Option Nat) (o : TutorialOptions) :
    (e.setTutorial index o).2.IsAt path :=
  ⟨.setTutorial h.1 index o, (edited_setTutorial h.1.settled.issued index o).path.trans h.2⟩

theorem IsAt.setVersion (h : e.IsAt path) (id version : String) (r : Record) :
    (e.setVersion id version r).2.IsAt path :=
  ⟨.setVersion h.1 id version r, (edited_setVersion h.1.settled.sound id version r).path.trans h.2⟩

theorem IsAt.setOnlyInclude (h : e.IsAt path) (id : String) (versions : List String) :
    (e.setOnlyInclude id versions).2.IsAt path :=
  ⟨.setOnlyInclude h.1 id versions,
    (edited_setOnlyInclude h.1.settled.sound id versions).path.trans h.2⟩

end Editor

namespace Command

namespace Session

variable {α β γ : Type}

theorem run_bind (c : Session α) (k : α → Session β) (s : State) :
    (c >>= k).run.run s =
      match c.run.run s with
      | (.ok a, s') => (k a).run.run s'
      | (.error e, s') => (.error e, s') := by
  have h : (c >>= k).run.run s =
      (ExceptT.bindCont k (c.run.run s).1 : StateM State _) (c.run.run s).2 := rfl
  rw [h]
  rcases c.run.run s with ⟨e | a, s'⟩ <;> rfl

/-- A step leaves a part of the state as it is, whether it succeeds or fails. -/
def Keeps (view : State → γ) (c : Session α) : Prop :=
  ∀ s, view (c.run.run s).2 = view s

/-- Where a step succeeds, its answer is one of these. -/
def Yields (P : α → Prop) (c : Session α) : Prop :=
  ∀ s a s', c.run.run s = (.ok a, s') → P a

/-- A part of the state that status lines and events are not in. -/
def Aside (view : State → γ) : Prop :=
  ∀ s stderr events, view { s with stderr, events } = view s

section Keeps

variable {view : State → γ}

theorem keeps_pure (a : α) : Keeps view (pure a : Session α) :=
  fun _ => rfl

theorem keeps_get : Keeps view (get : Session State) :=
  fun _ => rfl

theorem keeps_attempt (r : Result α) : Keeps view (attempt r) := by
  intro s
  cases r <;> rfl

theorem keeps_lift (r : Except Failure α) : Keeps view (liftM r : Session α) := by
  intro s
  cases r <;> rfl

theorem Keeps.bind {c : Session α} {k : α → Session β} (hc : Keeps view c)
    (hk : ∀ a, Keeps view (k a)) : Keeps view (c >>= k) := by
  intro s
  rw [run_bind, ← hc s]
  rcases c.run.run s with ⟨e | a, s'⟩
  · rfl
  · exact hk a s'

theorem Keeps.ite {c c' : Session α} (hc : Keeps view c) (hc' : Keeps view c') {p : Prop}
    {_ : Decidable p} : Keeps view (if p then c else c') := by
  split
  · exact hc
  · exact hc'

theorem keeps_forM {as : List α} {k : α → Session Unit} (hk : ∀ a, Keeps view (k a)) :
    Keeps view (as.forM k) := by
  induction as with
  | nil => exact keeps_pure ()
  | cons a rest ih => exact (hk a).bind fun _ => ih

theorem keeps_look (f : Folder → Result α) : Keeps view (look f) :=
  keeps_get.bind fun s => keeps_attempt (f s.folder)

theorem keeps_status (hv : Aside view) (symbol line : String) : Keeps view (status symbol line) :=
  fun s => hv s _ s.events

theorem keeps_report (hv : Aside view) (events : List Log.Event) : Keeps view (report events) :=
  fun s => hv s s.stderr _

theorem keeps_warnOf (hv : Aside view) (path : String) (errors : List ConfigError) :
    Keeps view (warnOf path errors) := by
  refine .ite (keeps_pure ()) ((keeps_forM fun e => keeps_status hv _ _).bind fun _ => ?_)
  exact (keeps_status hv _ _).bind fun _ => keeps_status hv _ _

theorem keeps_openEditor (hv : Aside view) (path : String) : Keeps view (openEditor path) := by
  refine keeps_get.bind fun s => ?_
  have hload : Keeps view (do
      let d ← look (Document.load · path)
      report (d.parsedEvent :: d.openingEvents)
      attempt (Editor.ofDocument d)) :=
    (keeps_look _).bind fun d => (keeps_report hv _).bind fun _ => keeps_attempt _
  exact .ite hload ((keeps_report hv _).bind fun _ => hload)

theorem keeps_loadTaxonomy (hv : Aside view) (path : Option String) :
    Keeps view (loadTaxonomy path) := by
  cases path with
  | none => exact keeps_pure _
  | some path => exact (keeps_report hv _).bind fun _ => keeps_look _

end Keeps

theorem aside_folder : Aside State.folder :=
  fun _ _ _ => rfl

theorem keeps_print (text : String) : Keeps State.folder (print text) :=
  fun _ => rfl

/-- The files, and the results that were written out. -/
def filesAndResults (s : State) : Folder × String :=
  (s.folder, s.stdout)

theorem aside_filesAndResults : Aside filesAndResults :=
  fun _ _ _ => rfl

section Yields

variable {P : α → Prop} {Q : β → Prop}

theorem Yields.bind {c : Session α} {k : α → Session β} (hc : Yields P c)
    (hk : ∀ a, P a → Yields Q (k a)) : Yields Q (c >>= k) := by
  intro s b s' h
  rw [run_bind] at h
  rcases hrun : c.run.run s with ⟨e | a, s₁⟩
  · rw [hrun] at h
    cases h
  · rw [hrun] at h
    exact hk a (hc s a s₁ hrun) s₁ b s' h

theorem yields_true (c : Session α) : Yields (fun _ => True) c :=
  fun _ _ _ _ => trivial

theorem yields_pure {a : α} (h : P a) : Yields P (pure a : Session α) := by
  rintro s _ _ ⟨⟩
  exact h

theorem yields_attempt {r : Result α} (h : ∀ a, r = .ok a → P a) : Yields P (attempt r) := by
  intro s a s' hrun
  cases r with
  | error e => cases hrun
  | ok b =>
    cases hrun
    exact h a rfl

theorem yields_look {f : Folder → Result α} (h : ∀ folder a, f folder = .ok a → P a) :
    Yields P (look f) :=
  (yields_true _).bind fun s _ => yields_attempt (h s.folder)

end Yields

end Session

open Session

/-! A listing leaves the files alone. -/

theorem keeps_say (line : String) : Keeps State.folder (say line) :=
  keeps_print _

theorem keeps_sayTutorials (s : Settings) : Keeps State.folder (sayTutorials s) := by
  refine (keeps_openEditor aside_folder _).bind fun editor => ?_
  refine (keeps_report aside_folder _).bind fun _ => ?_
  have hwarn := keeps_warnOf aside_folder s.config editor.tutorials.errors
  refine .ite ?_ ?_
  · refine (keeps_say _).bind fun _ => ?_
    exact (keeps_status aside_folder _ _).bind fun _ => hwarn
  · refine (keeps_say _).bind fun _ => ?_
    exact (keeps_forM fun t => keeps_say _).bind fun _ => hwarn

theorem keeps_sayTags (s : Settings) : Keeps State.folder (sayTags s) := by
  refine (keeps_loadTaxonomy aside_folder _).bind fun taxonomy => ?_
  refine keeps_forM fun entry => ?_
  exact (keeps_say _).bind fun _ => keeps_forM fun tag => keeps_say _

theorem keeps_sayDocsPlugin (p : DocsPlugin) : Keeps State.folder (sayDocsPlugin p) := by
  have hversions : ∀ {rest : Session Unit}, Keeps State.folder rest → Keeps State.folder (do
      p.versions.forM fun v => do
        let label := ((v.record.get? "label").bind Value.text?).getD ""
        say (VersioningNotice.versionItem.text
          [("key", padRight 12 v.key.name), ("label", label)])
      rest) :=
    fun hrest => (keeps_forM fun v => keeps_say _).bind fun _ => hrest
  unfold sayDocsPlugin
  refine (keeps_say _).bind fun _ => ?_
  cases p.onlyInclude with
  | some versions =>
    exact .ite ((keeps_say _).bind fun _ => hversions (keeps_say _)) (hversions (keeps_say _))
  | none =>
    exact .ite ((keeps_say _).bind fun _ => hversions (keeps_pure ())) (hversions (keeps_pure ()))

theorem keeps_sayVersions (s : Settings) : Keeps State.folder (sayVersions s) := by
  refine (keeps_openEditor aside_folder _).bind fun editor => ?_
  refine (keeps_report aside_folder _).bind fun _ => ?_
  have hplugins : Keeps State.folder (do
      editor.docsPlugins.value.forM sayDocsPlugin
      warnOf s.config editor.docsPlugins.errors) :=
    (keeps_forM keeps_sayDocsPlugin).bind fun _ => keeps_warnOf aside_folder _ _
  exact .ite ((keeps_say _).bind fun _ => hplugins) hplugins

/-! An edit looks at the files and says nothing on the standard output, and what it gives is a
session on the config. -/

theorem yields_openEditor (path : String) : Yields (Editor.IsAt · path) (openEditor path) := by
  refine (yields_true _).bind fun s _ => ?_
  have hload : Yields (Editor.IsAt · path) (do
      let d ← look (Document.load · path)
      report (d.parsedEvent :: d.openingEvents)
      attempt (Editor.ofDocument d)) := by
    have hlook : Yields (fun d => ∃ source, Document.ofSource source path = .ok d)
        (look (Document.load · path)) := by
      refine yields_look fun folder d h => ?_
      simp only [Document.load, bind, Except.bind] at h
      split at h
      · cases h
      · exact ⟨_, h⟩
    refine hlook.bind fun d hd => ?_
    obtain ⟨source, hd⟩ := hd
    exact (yields_true _).bind fun _ _ => yields_attempt fun e he => Editor.isAt_ofDocument hd he
  split
  · exact hload
  · exact (yields_true _).bind fun _ _ => hload

/-- A step that makes an edit of the config at `path`. -/
structure MakesEdit (path : String) (c : Session Edit) : Prop where
  keeps : Keeps filesAndResults c
  yields : Yields (fun e => e.editor.IsAt path) c

theorem edits_editTutorial (s : Settings) (index : Option Nat) (edits : TutorialEdits) :
    MakesEdit s.config (editTutorial s index edits) where
  keeps := by
    have hv := aside_filesAndResults
    refine (keeps_openEditor hv _).bind fun editor => ?_
    refine (keeps_loadTaxonomy hv _).bind fun taxonomy => ?_
    refine (keeps_report hv _).bind fun _ => ?_
    refine (keeps_warnOf hv _ _).bind fun _ => ?_
    refine (keeps_attempt _).bind fun old => ?_
    refine (keeps_report hv _).bind fun _ => ?_
    refine (keeps_lift _).bind fun options => ?_
    refine (keeps_attempt _).bind fun place => ?_
    exact (keeps_report hv _).bind fun _ => keeps_pure _
  yields := by
    refine (yields_openEditor _).bind fun editor h => ?_
    refine (yields_true _).bind fun taxonomy _ => ?_
    refine (yields_true _).bind fun _ _ => ?_
    refine (yields_true _).bind fun _ _ => ?_
    refine (yields_true _).bind fun old _ => ?_
    refine (yields_true _).bind fun _ _ => ?_
    refine (yields_true _).bind fun options _ => ?_
    refine (yields_true _).bind fun place _ => ?_
    exact (yields_true _).bind fun _ _ => yields_pure (h.setTutorial _ _)

theorem edits_editVersion (s : Settings) (version pluginId : String) (edits : VersionEdits) :
    MakesEdit s.config (editVersion s version pluginId edits) where
  keeps := by
    have hv := aside_filesAndResults
    refine (keeps_openEditor hv _).bind fun editor => ?_
    refine (keeps_report hv _).bind fun _ => ?_
    refine (keeps_attempt _).bind fun old => ?_
    refine (keeps_report hv _).bind fun _ => ?_
    refine (keeps_attempt _).bind fun _ => ?_
    exact (keeps_report hv _).bind fun _ => keeps_pure _
  yields := by
    refine (yields_openEditor _).bind fun editor h => ?_
    refine (yields_true _).bind fun _ _ => ?_
    refine (yields_true _).bind fun old _ => ?_
    refine (yields_true _).bind fun _ _ => ?_
    refine (yields_true _).bind fun _ _ => ?_
    exact (yields_true _).bind fun _ _ => yields_pure (h.setVersion _ _ _)

theorem edits_editOnlyInclude (s : Settings) (pluginId : String) (versions : List String) :
    MakesEdit s.config (editOnlyInclude s pluginId versions) where
  keeps := by
    have hv := aside_filesAndResults
    refine (keeps_openEditor hv _).bind fun editor => ?_
    refine (keeps_report hv _).bind fun _ => ?_
    exact (keeps_attempt _).bind fun _ => keeps_pure _
  yields := by
    refine (yields_openEditor _).bind fun editor h => ?_
    refine (yields_true _).bind fun _ _ => ?_
    exact (yields_true _).bind fun _ _ => yields_pure (h.setOnlyInclude _ _)

/-- Every editing command makes its edit first, dry or not, and then writes or shows it. -/
theorem perform_eq_finish (s : Settings) {c : Command} (hc : c.edits) :
    ∃ edit, MakesEdit s.config edit ∧
      perform s c = (edit >>= finish s) ∧
      perform { s with dryRun := true } c = (edit >>= finish { s with dryRun := true }) := by
  cases c with
  | setTutorial index edits => exact ⟨_, edits_editTutorial s index edits, rfl, rfl⟩
  | setVersion version id edits => exact ⟨_, edits_editVersion s version id edits, rfl, rfl⟩
  | setOnlyInclude id versions => exact ⟨_, edits_editOnlyInclude s id versions, rfl, rfl⟩
  | listTutorials | listTags | listVersions => cases hc

theorem run_finish_dry {s : Settings} (hdry : s.dryRun = true) (e : Edit) (state : State) :
    ∃ stderr, (finish s e).run.run state =
      (.ok (), { state with stdout := state.stdout ++ e.editor.render, stderr }) := by
  simp only [finish, hdry, if_true]
  exact ⟨_, rfl⟩

theorem run_look {α : Type} (f : Folder → Result α) (state : State) :
    (look f).run.run state = ((f state.folder).mapError .config, state) := by
  have h : (look f).run.run state = (attempt (f state.folder)).run.run state := rfl
  rw [h]
  cases f state.folder <;> rfl

theorem run_change (f : Folder → Result Folder) (state : State) :
    (change f).run.run state =
      match f state.folder with
      | .ok folder => (.ok (), { state with folder })
      | .error e => (.error (.config e), state) := by
  rw [change, run_bind, run_look]
  cases f state.folder <;> rfl

theorem run_finish {s : Settings} (hdry : s.dryRun = false) (e : Edit) (state : State) :
    (∃ folder stderr events, e.editor.save state.folder = .ok folder ∧
      (finish s e).run.run state = (.ok (), { state with folder, stderr, events })) ∨
    ∃ err, e.editor.save state.folder = .error err ∧
      (finish s e).run.run state = (.error (.config err), state) := by
  have hfinish : finish s e = (do
      change e.editor.save
      report (Editor.savedEvents s.config)
      success (CommonNotice.configWritten.text [("path", s.config)])
      success e.notice) := by
    simp only [finish, hdry]
    rfl
  rw [hfinish, run_bind, run_change]
  cases e.editor.save state.folder with
  | error err => exact .inr ⟨err, rfl, rfl⟩
  | ok folder => exact .inl ⟨folder, _, _, rfl, rfl⟩

/-! The outcome of a run. -/

namespace Outcome

variable {env : Environment} {debug : Bool}

theorem folder_ofResult (result : Except Failure Unit × State) :
    (ofResult env debug result).folder = result.2.folder := by
  rcases result with ⟨e | ⟨⟩, s⟩ <;> rfl

end Outcome

/-- How the run of an editing command ends, and how it ends dry, seen from the folder that it finds:
its config is at `config`. -/
structure Rehearses (f : Folder) (config : String) (dry real : Outcome) : Prop where
  /-- What the dry run refuses is refused in the same words. -/
  refused : dry.exit ≠ 0 → real = dry
  /-- What it accepts fails only if the file cannot be written. -/
  accepted : dry.exit = 0 → real.exit = 0 ∨ ∃ fault, f.write config dry.stdout = .error fault
  /-- What it shows is what is written, and no other file changes. -/
  written : dry.exit = 0 → real.exit = 0 → f.Wrote real.folder config dry.stdout
  /-- Unless it succeeds, the run leaves the files alone; and the dry run does so always. -/
  failed : real.exit ≠ 0 → real.folder = f
  dry : dry.folder = f

theorem save_eq {e : Editor} {path : String} (h : e.IsAt path) (f : Folder) :
    e.save f = (f.write path e.render).mapError fun fault => .io (Folder.writeProblem path fault) := by
  rw [← h.2]
  rfl

/-- An editing command and its dry run come to the same decision. -/
theorem rehearses (f : Folder) (env : Environment) {i : Invocation} (hc : i.command.edits)
    (hdry : i.settings.dryRun = false) :
    Rehearses f i.settings.config (runInvocation f env i.dry) (runInvocation f env i) := by
  obtain ⟨edit, hedit, hreal, hshown⟩ := perform_eq_finish i.settings hc
  let start : State := { folder := f, events := startEvents i }
  have hstart : filesAndResults (edit.run.run start).2 = (f, "") := hedit.keeps start
  have hr : runInvocation f env i =
      .ofResult env i.settings.debug ((edit >>= finish i.settings).run.run start) := by
    rw [runInvocation, hreal]
  have hd : runInvocation f env i.dry =
      .ofResult env i.settings.debug ((edit >>= finish i.dry.settings).run.run start) := by
    rw [runInvocation, show perform i.dry.settings i.dry.command = _ from hshown]
    rfl
  -- both runs come to the same edit, and differ in what they do with it
  rw [run_bind] at hr hd
  rcases hrun : edit.run.run start with ⟨e | e, state⟩
  · -- the edit itself is refused
    rw [hrun] at hr hd hstart
    have hfolder : state.folder = f := congrArg Prod.fst hstart
    rw [hr, hd]
    exact ⟨fun _ => rfl, nofun, nofun, fun _ => hfolder, hfolder⟩
  · rw [hrun] at hr hd hstart
    have hfolder : state.folder = f := congrArg Prod.fst hstart
    have hstdout : state.stdout = "" := congrArg Prod.snd hstart
    obtain ⟨stderr, hshow⟩ := run_finish_dry (s := i.dry.settings) rfl e state
    simp only [hshow, hstdout, String.empty_append] at hd
    rw [hd]
    -- the dry run shows the text, and the run writes it if it can
    have hsave := save_eq (hedit.yields _ _ _ hrun) f
    rcases run_finish hdry e state with ⟨folder, stderr', events, hok, hwrite⟩ | ⟨err, herr, hwrite⟩
    · simp only [hwrite] at hr
      rw [hr]
      rw [hfolder, hsave] at hok
      exact ⟨fun h => absurd rfl h, fun _ => .inl rfl,
        fun _ _ => Folder.wrote_of_write (Result.mapError_eq_ok.mp hok), fun h => absurd rfl h, hfolder⟩
    · simp only [hwrite] at hr
      rw [hr]
      rw [hfolder, hsave] at herr
      obtain ⟨fault, hf, -⟩ := Result.mapError_eq_error.mp herr
      exact ⟨fun h => absurd rfl h, fun _ => .inr ⟨fault, hf⟩, nofun, fun _ => hfolder, hfolder⟩

theorem folder_listing (f : Folder) (env : Environment) {i : Invocation} (hc : ¬ i.command.edits) :
    (runInvocation f env i).folder = f := by
  have hkeeps : Keeps State.folder (perform i.settings i.command) := by
    cases hcommand : i.command with
    | listTutorials => exact keeps_sayTutorials _
    | listTags => exact keeps_sayTags _
    | listVersions => exact keeps_sayVersions _
    | setTutorial | setVersion | setOnlyInclude =>
      rw [hcommand] at hc
      exact absurd rfl hc
  rw [runInvocation, Outcome.folder_ofResult]
  exact hkeeps _

theorem folder_dryRun (f : Folder) (env : Environment) {i : Invocation} (hdry : i.settings.dryRun) :
    (runInvocation f env i).folder = f := by
  by_cases hc : i.command.edits
  · -- the same command that is not dry has this one for its rehearsal
    let real : Invocation := { i with settings := { i.settings with dryRun := false } }
    have hreal : real.dry = i := by
      simp only [real, Invocation.dry, ← hdry]
    exact hreal ▸ (rehearses f env (i := real) hc rfl).dry
  · exact folder_listing f env hc

theorem folder_failed (f : Folder) (env : Environment) {i : Invocation}
    (h : (runInvocation f env i).exit ≠ 0) : (runInvocation f env i).folder = f := by
  by_cases hc : i.command.edits
  · by_cases hdry : i.settings.dryRun
    · exact folder_dryRun f env hdry
    · exact (rehearses f env hc (Bool.not_eq_true _ ▸ hdry)).failed h
  · exact folder_listing f env hc

/-- What a command line does to the files of a folder. -/
structure WritesOnSuccess (f : Folder) (env : Environment) (arguments : List String) : Prop where
  failed : (run f env arguments).exit ≠ 0 → (run f env arguments).folder = f
  listing : ∀ i, invocation env arguments = .ok i → ¬ i.command.edits →
    (run f env arguments).folder = f
  dry : AsksDryRun arguments → (run f env arguments).folder = f
  /-- The command line of an edit, and each that asks for the same in a dry run. There is one. -/
  rehearsed : ∀ i, invocation env arguments = .ok i → i.command.edits → ¬ i.settings.dryRun →
    invocation env ("--dry-run" :: arguments) = .ok i.dry ∧
      ∀ rehearsal, invocation env rehearsal = .ok i.dry →
        Rehearses f i.settings.config (run f env rehearsal) (run f env arguments)

theorem run_of_invocation {f : Folder} {env : Environment} {arguments : List String}
    {i : Invocation} (h : invocation env arguments = .ok i) :
    run f env arguments = runInvocation f env i := by
  rw [run, h]

theorem folder_of_refusal {f : Folder} {env : Environment} {arguments : List String} {r : Refusal}
    (h : invocation env arguments = .error r) : (run f env arguments).folder = f := by
  rw [run, h]
  cases r <;> rfl

/-- A run writes only if it succeeds, and a dry run shows exactly what would be written. -/
theorem run_writesOnSuccess (f : Folder) (env : Environment) (arguments : List String) :
    WritesOnSuccess f env arguments where
  failed hexit := by
    cases h : invocation env arguments with
    | error r => exact folder_of_refusal h
    | ok i =>
      rw [run_of_invocation h] at hexit ⊢
      exact folder_failed f env hexit
  listing i h hc := by
    rw [run_of_invocation h]
    exact folder_listing f env hc
  dry hasks := by
    cases h : invocation env arguments with
    | error r => exact folder_of_refusal h
    | ok i =>
      rw [run_of_invocation h]
      exact folder_dryRun f env (dryRun_of_asks h hasks)
  rehearsed i h hc hdry := by
    have hreal : i.settings.dryRun = false := Bool.not_eq_true _ ▸ hdry
    refine ⟨invocation_dryRun h hreal, fun rehearsal hrehearsal => ?_⟩
    rw [run_of_invocation h, run_of_invocation hrehearsal]
    exact rehearses f env hc hreal

end Command

end SiteConfig
