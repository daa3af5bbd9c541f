import SiteConfig.Folder

/-!
What is written to a path is read from it, and nothing else in the folder changes.
-/

namespace SiteConfig.Folder

variable {f f' : Folder} {path text : String}

theorem forM_eq_ok {ε α : Type} {step : α → Except ε Unit} {as : List α} :
    as.forM step = .ok () ↔ ∀ a ∈ as, step a = .ok () := by
  induction as with
  | nil => simp [pure, Except.pure]
  | cons a rest ih =>
    have hcons : (a :: rest).forM step = (step a).bind fun _ => rest.forM step := rfl
    rw [hcons, List.forall_mem_cons, ← ih]
    cases step a <;> simp [Except.bind]

theorem enter_eq_ok {way : List String} : f.enter way = .ok () ↔ f.entry way = .directory := by
  unfold enter
  cases f.entry way <;> simp

theorem follow_eq_ok {way : List String} :
    f.follow path = .ok way ↔
      path ≠ "" ∧ way = names path ∧ ∀ w ∈ waysBefore (names path), f.entry w = .directory := by
  have hforM : (waysBefore (names path)).forM f.enter = .ok () ↔
      ∀ w ∈ waysBefore (names path), f.entry w = .directory := by
    simp only [forM_eq_ok, enter_eq_ok]
  rw [← hforM]
  by_cases hempty : path = ""
  · simp [follow, hempty, bind, Except.bind, throw, throwThe, MonadExceptOf.throw]
  · simp only [follow, hempty, if_false, bind, Except.bind, pure, Except.pure]
    cases (waysBefore (names path)).forM f.enter with
    | error e => simp
    | ok u => simp [hempty, eq_comm]

theorem not_mem_waysBefore (way : List String) : way ∉ waysBefore way := by
  intro h
  obtain ⟨n, hn, htake⟩ := List.mem_map.mp h
  have hlength := congrArg List.length htake
  simp only [List.mem_range] at hn
  simp only [List.length_take] at hlength
  omega

/-- The folder `f'` is `f` with `text` in the file at `path`, and the same otherwise. -/
structure Wrote (f f' : Folder) (path text : String) : Prop where
  read : f'.read path = .ok text
  files : ∀ way, way ≠ names path → f'.files.lookup way = f.files.lookup way
  directories : f'.directories = f.directories

theorem write_eq_ok (h : f.write path text = .ok f') :
    f.follow path = .ok (names path) ∧ f.entry (names path) ≠ .directory ∧
      endsInSlash path = false ∧ endsInDot path = false ∧
      f' = { f with files := put (names path) (.text text) f.files } := by
  simp only [write, bind, Except.bind, pure, Except.pure] at h
  split at h
  · cases h
  rename_i way hfollow
  obtain ⟨-, rfl, -⟩ := follow_eq_ok.mp hfollow
  split at h
  · cases h
  rename_i hplace
  simp only [Bool.or_eq_true, decide_eq_true_eq, not_or, Bool.not_eq_true] at hplace
  split at h
  · -- what the dot follows is no directory, since nothing at the end of the way is one
    cases henter : f.enter (names path) with
    | error e => simp [henter] at h
    | ok u => exact absurd (enter_eq_ok.mp henter) hplace.1
  · rename_i hdot
    cases h
    exact ⟨hfollow, hplace.1, hplace.2, Bool.not_eq_true _ ▸ hdot, rfl⟩

theorem entry_put_other {way w : List String} (content : FileContent) (hw : w ≠ way) :
    entry { f with files := put way content f.files } w = f.entry w := by
  simp [entry, lookup_put, hw]

theorem entry_put_same {way : List String} (content : FileContent)
    (h : f.entry way ≠ .directory) :
    entry { f with files := put way content f.files } way = .file content := by
  unfold entry at h ⊢
  split at h
  · exact absurd rfl h
  · rename_i hplace
    rw [if_neg hplace, lookup_put, if_pos rfl]

theorem wrote_of_write (h : f.write path text = .ok f') : Wrote f f' path text := by
  obtain ⟨hfollow, hentry, hslash, hdot, rfl⟩ := write_eq_ok h
  obtain ⟨hempty, -, hbefore⟩ := follow_eq_ok.mp hfollow
  refine ⟨?_, fun way hway => ?_, rfl⟩
  · have hfollow' : follow { f with files := put (names path) (.text text) f.files } path =
        .ok (names path) := by
      refine follow_eq_ok.mpr ⟨hempty, rfl, fun w hw => ?_⟩
      have hne : w ≠ names path := by
        rintro rfl
        exact not_mem_waysBefore _ hw
      rw [entry_put_other _ hne]
      exact hbefore w hw
    simp [read, hfollow', entry_put_same _ hentry, hslash, hdot, bind, Except.bind, pure,
      Except.pure]
  · rw [lookup_put, if_neg hway]

end SiteConfig.Folder
