import SiteConfig.Proofs.Runs
import SiteConfig.Proofs.Values

/-!
What a step of a command answers is decided by the files that it looks at; what it says on its way
plays no part. So an edit is what its answers make of the config, and the run succeeds if none of
them is refused and the config can be written.
-/

namespace SiteConfig

/-- The taxonomy that a run goes by. -/
def Settings.taxonomyIn (s : Settings) (f : Folder) : Result Taxonomy :=
  match s.taxonomy with
  | some path => Taxonomy.load f path
  | none => .ok .builtin

theorem Editor.isAt_load {f : Folder} {path : String} {e : Editor}
    (h : Editor.load f path = .ok e) : e.IsAt path := by
  obtain ⟨d, hd, he⟩ := Result.ok_of_bind h
  obtain ⟨source, -, hd⟩ := Result.ok_of_bind hd
  exact isAt_ofDocument hd he

namespace Command

namespace Session

variable {α β : Type} {f : Folder}

/-- Over the files `f`, a step answers `r` and leaves the files alone. -/
def Answers (f : Folder) (c : Session α) (r : Except Failure α) : Prop :=
  ∀ s, s.folder = f → ∃ s', c.run.run s = (r, s') ∧ s'.folder = f

theorem Answers.bind {c : Session α} {k : α → Session β} {r : Except Failure α}
    {r' : α → Except Failure β} (hc : Answers f c r) (hk : ∀ a, Answers f (k a) (r' a)) :
    Answers f (c >>= k) (r >>= r') := by
  intro s hs
  obtain ⟨s₁, hrun, hs₁⟩ := hc s hs
  rw [run_bind, hrun]
  cases r with
  | error e => exact ⟨s₁, rfl, hs₁⟩
  | ok a => exact hk a s₁ hs₁

/-- A step with nothing to answer is passed over. -/
theorem Answers.skip {c : Session Unit} {k : Unit → Session β} {r : Except Failure β}
    (hc : Answers f c (.ok ())) (hk : Answers f (k ()) r) : Answers f (c >>= k) r :=
  hc.bind fun _ => hk

theorem Answers.get {k : State → Session β} {r : Except Failure β}
    (h : ∀ s, s.folder = f → Answers f (k s) r) : Answers f (get >>= k) r := by
  intro s hs
  rw [run_bind]
  exact h s hs s hs

theorem answers_pure (a : α) : Answers f (pure a) (.ok a) :=
  fun s hs => ⟨s, rfl, hs⟩

theorem answers_lift (r : Except Failure α) : Answers f (liftM r) r := by
  intro s hs
  cases r <;> exact ⟨s, rfl, hs⟩

theorem answers_attempt (r : Result α) : Answers f (attempt r) (r.mapError .config) := by
  intro s hs
  cases r <;> exact ⟨s, rfl, hs⟩

theorem answers_look (g : Folder → Result α) : Answers f (look g) ((g f).mapError .config) := by
  intro s hs
  refine ⟨s, ?_, hs⟩
  rw [run_look, hs]

theorem answers_report (events : List Log.Event) : Answers f (report events) (.ok ()) :=
  fun _ hs => ⟨_, rfl, hs⟩

theorem answers_status (symbol line : String) : Answers f (status symbol line) (.ok ()) :=
  fun _ hs => ⟨_, rfl, hs⟩

theorem answers_forM {as : List α} {k : α → Session Unit} (hk : ∀ a, Answers f (k a) (.ok ())) :
    Answers f (as.forM k) (.ok ()) := by
  induction as with
  | nil => exact answers_pure ()
  | cons a rest ih => exact (hk a).skip ih

theorem answers_warnOf (path : String) (errors : List ConfigError) :
    Answers f (warnOf path errors) (.ok ()) := by
  unfold warnOf
  split
  · exact answers_pure ()
  · refine (answers_forM fun e => answers_status _ _).skip ?_
    exact (answers_status _ _).skip (answers_status _ _)

end Session

open Session

variable {f : Folder}

theorem answers_openEditor (path : String) :
    Answers f (openEditor path) ((Editor.load f path).mapError .config) := by
  have hload : Answers f (do
      let d ← look (Document.load · path)
      report (d.parsedEvent :: d.openingEvents)
      attempt (Editor.ofDocument d)) ((Editor.load f path).mapError .config) := by
    have hsplit : (Editor.load f path).mapError Failure.config =
        (Document.load f path).mapError .config >>= fun d =>
          (Editor.ofDocument d).mapError .config := by
      unfold Editor.load
      cases Document.load f path <;> rfl
    rw [hsplit]
    exact (answers_look _).bind fun d => (answers_report _).skip (answers_attempt _)
  refine .get fun s hs => ?_
  split
  · exact hload
  · exact (answers_report _).skip hload

theorem answers_loadTaxonomy (s : Settings) :
    Answers f (loadTaxonomy s.taxonomy) ((s.taxonomyIn f).mapError .config) := by
  unfold Settings.taxonomyIn
  cases s.taxonomy with
  | none => exact answers_pure _
  | some path => exact (answers_report _).skip (answers_look _)

/-! An edit of a tutorial. -/

/-- What an edit of a tutorial comes to. -/
def tutorialEdit (f : Folder) (s : Settings) (index : Option Nat) (edits : TutorialEdits) :
    Except Failure Edit := do
  let before ← (Editor.load f s.config).mapError .config
  let taxonomy ← (s.taxonomyIn f).mapError .config
  let old ← (tutorialBefore before index).mapError .config
  let options := (← edits.apply taxonomy old).seeded s.defaults
  let (answer, edited) := before.setTutorial index options
  let place ← answer.mapError .config
  let notice := if place = before.pluginCount then TutorialNotice.added else TutorialNotice.updated
  return ⟨edited, notice.text [("title", options.title), ("index", toString place)]⟩

theorem answers_editTutorial (s : Settings) (index : Option Nat) (edits : TutorialEdits) :
    Answers f (editTutorial s index edits) (tutorialEdit f s index edits) := by
  refine (answers_openEditor _).bind fun before => ?_
  refine (answers_loadTaxonomy s).bind fun taxonomy => ?_
  refine (answers_report _).skip ?_
  refine (answers_warnOf _ _).skip ?_
  refine (answers_attempt _).bind fun old => ?_
  refine (answers_report _).skip ?_
  refine (answers_lift _).bind fun options => ?_
  refine (answers_attempt _).bind fun place => ?_
  exact (answers_report _).skip (answers_pure _)

/-- The edit is made if no step of it is refused. -/
theorem tutorialEdit_eq_ok {s : Settings} {index : Option Nat} {edits : TutorialEdits}
    {edited : Editor} :
    (∃ notice, tutorialEdit f s index edits = .ok ⟨edited, notice⟩) ↔
      ∃ before t old o place, Editor.load f s.config = .ok before ∧ s.taxonomyIn f = .ok t ∧
        tutorialBefore before index = .ok old ∧ edits.apply t old = .ok o ∧
        before.setTutorial index (o.seeded s.defaults) = (.ok place, edited) := by
  constructor
  · rintro ⟨notice, h⟩
    obtain ⟨before, hload, h⟩ := Result.ok_of_bind h
    obtain ⟨t, ht, h⟩ := Result.ok_of_bind h
    obtain ⟨old, hold, h⟩ := Result.ok_of_bind h
    obtain ⟨o, ho, h⟩ := Result.ok_of_bind h
    obtain ⟨place, hplace, h⟩ := Result.ok_of_bind h
    cases h
    exact ⟨before, t, old, o, place, Result.mapError_eq_ok.mp hload, Result.mapError_eq_ok.mp ht,
      Result.mapError_eq_ok.mp hold, ho, Prod.ext (Result.mapError_eq_ok.mp hplace) rfl⟩
  · rintro ⟨before, t, old, o, place, hload, ht, hold, ho, hset⟩
    unfold tutorialEdit
    rw [hload, ht]
    simp only [Except.mapError, bind, Except.bind, hold, ho, hset]
    exact ⟨_, rfl⟩

/-! The end of a run. -/

/-- How the run of an edit ends that is not refused: its config is shown, or it is written. -/
structure Finishes (f : Folder) (s : Settings) (e : Editor) (outcome : Outcome) : Prop where
  exit : outcome.exit = 0 ↔ s.dryRun ∨ ∃ f', f.write s.config e.render = .ok f'
  shown : s.dryRun → outcome.stdout = e.render ∧ outcome.folder = f
  saved : ¬ s.dryRun → outcome.exit = 0 → f.Wrote outcome.folder s.config e.render

theorem finishes {s : Settings} {env : Environment} {debug : Bool} {edit : Edit} {state : State}
    (he : edit.editor.IsAt s.config) (hstdout : state.stdout = "") :
    Finishes state.folder s edit.editor (.ofResult env debug ((finish s edit).run.run state)) := by
  by_cases hdry : s.dryRun
  · obtain ⟨stderr, hshow⟩ := run_finish_dry hdry edit state
    rw [hshow]
    refine ⟨⟨fun _ => .inl hdry, fun _ => rfl⟩, fun _ => ⟨?_, rfl⟩, fun hreal => absurd hdry hreal⟩
    simp only [Outcome.ofResult, hstdout, String.empty_append]
  · have hsave := save_eq he state.folder
    rcases run_finish (Bool.not_eq_true _ ▸ hdry) edit state with
      ⟨folder, stderr, events, hok, hwrite⟩ | ⟨err, herr, hwrite⟩
    · rw [hwrite]
      have hwritten := Result.mapError_eq_ok.mp (hsave ▸ hok)
      exact ⟨⟨fun _ => .inr ⟨folder, hwritten⟩, fun _ => rfl⟩, fun hdry' => absurd hdry' hdry,
        fun _ _ => Folder.wrote_of_write hwritten⟩
    · rw [hwrite]
      refine ⟨⟨nofun, fun h => ?_⟩, fun hdry' => absurd hdry' hdry, nofun⟩
      obtain ⟨folder, hf⟩ := h.resolve_left hdry
      rw [hsave, hf] at herr
      cases herr

/-- An edit is refused with all that the run is for, or the run ends with it. -/
theorem run_of_answers {env : Environment} {arguments : List String} {i : Invocation}
    {edit : Session Edit} {answer : Except Failure Edit} (h : invocation env arguments = .ok i)
    (hperform : perform i.settings i.command = edit >>= finish i.settings)
    (hmakes : MakesEdit i.settings.config edit) (hanswers : Answers f edit answer) :
    (∃ e, answer = .ok e ∧ Finishes f i.settings e.editor (run f env arguments)) ∨
      ∃ failure, answer = .error failure ∧ (run f env arguments).exit = 1 := by
  let start : State := { folder := f, events := startEvents i }
  obtain ⟨state, hrun, hfolder⟩ := hanswers start rfl
  have hr : run f env arguments =
      .ofResult env i.settings.debug ((edit >>= finish i.settings).run.run start) := by
    rw [run_of_invocation h, runInvocation, hperform]
  rw [run_bind, hrun] at hr
  rw [hr]
  cases answer with
  | error failure => exact .inr ⟨failure, rfl, rfl⟩
  | ok e =>
    have hstdout : state.stdout = "" := by
      have hkeeps := hmakes.keeps start
      rw [hrun] at hkeeps
      exact congrArg Prod.snd hkeeps
    refine .inl ⟨e, rfl, ?_⟩
    rw [← hfolder]
    exact finishes (hmakes.yields _ _ _ hrun) hstdout

end Command

end SiteConfig
