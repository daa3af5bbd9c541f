import SiteConfig.Command.Arguments

/-!
The flag of a dry run on the command line: wherever it is given, it is seen; and given before all
other arguments, it changes nothing else of what they ask for.
-/

namespace SiteConfig

/-- The same command in a dry run. -/
def Invocation.dry (i : Invocation) : Invocation :=
  { i with settings := { i.settings with dryRun := true } }

namespace Command

def dryRunRule : OptionRule :=
  { name := "dry-run", takesValue := false }

namespace Given

variable {g g' : Given} {name : String}

theorem has_iff : g.has name ↔ ∃ value, (name, value) ∈ g.options := by
  simp [has, values, List.filterMap_eq_nil_iff]

/-- All that `g` holds comes first in `g'`. -/
def Extends (g' g : Given) : Prop :=
  ∃ more, g'.options = g.options ++ more

theorem Extends.refl (g : Given) : g.Extends g :=
  ⟨[], (List.append_nil _).symm⟩

theorem Extends.trans {g'' : Given} (h' : g''.Extends g') (h : g'.Extends g) :
    g''.Extends g := by
  obtain ⟨more, hmore⟩ := h
  obtain ⟨more', hmore'⟩ := h'
  exact ⟨more ++ more', by rw [hmore', hmore, List.append_assoc]⟩

theorem Extends.has (h : g'.Extends g) (hg : g.has name) : g'.has name := by
  obtain ⟨more, hmore⟩ := h
  obtain ⟨value, hvalue⟩ := has_iff.mp hg
  exact has_iff.mpr ⟨value, by simp [hmore, hvalue]⟩

theorem add_eq_ok {o : OptionRule} {value : String} (h : g.add o value = .ok g') :
    (o.accepts value && (o.repeatable || !g.has o.name)) = true ∧
      g' = { g with options := g.options ++ [(o.name, value)] } := by
  unfold add at h
  split at h
  · rename_i hallowed
    cases h
    exact ⟨hallowed, rfl⟩
  · cases h

theorem Extends.add {o : OptionRule} {value : String} (h : g.add o value = .ok g') :
    g'.Extends g :=
  ⟨[(o.name, value)], by rw [(add_eq_ok h).2]⟩

theorem has_add {o : OptionRule} {value : String} (h : g.add o value = .ok g') :
    g'.has o.name :=
  has_iff.mpr ⟨value, by simp [(add_eq_ok h).2]⟩

theorem addOperands_eq_ok {limit : Option Nat} {operands : List String}
    (h : g.addOperands limit operands = .ok g') :
    limit.all ((g.operands ++ operands).length ≤ ·) ∧
      g' = { g with operands := g.operands ++ operands } := by
  simp only [addOperands] at h
  split at h
  · rename_i hallowed
    cases h
    exact ⟨hallowed, rfl⟩
  · cases h

theorem Extends.addOperands {limit : Option Nat} {operands : List String}
    (h : g.addOperands limit operands = .ok g') : g'.Extends g :=
  ⟨[], by rw [(addOperands_eq_ok h).2, List.append_nil]⟩

/-- The same with the flag of a dry run before all other options. -/
def flagged (g : Given) : Given :=
  { g with options := (dryRunRule.name, "") :: g.options }

theorem has_flagged (h : name ≠ dryRunRule.name) : g.flagged.has name = g.has name := by
  simp [has, values, flagged, Ne.symm h]

theorem flagged_has : g.flagged.has dryRunRule.name := by
  simp [has, values, flagged]

/-- An option that is no flag of a dry run is taken with or without one. -/
theorem add_flagged {o : OptionRule} {value : String} (h : g.add o value = .ok g')
    (hdry : ¬ g'.has dryRunRule.name) : g.flagged.add o value = .ok g'.flagged := by
  have hname : o.name ≠ dryRunRule.name := fun hname => hdry (hname ▸ has_add h)
  obtain ⟨hallowed, rfl⟩ := add_eq_ok h
  rw [add, has_flagged hname, if_pos hallowed]
  rfl

theorem addOperands_flagged {limit : Option Nat} {operands : List String}
    (h : g.addOperands limit operands = .ok g') :
    g.flagged.addOperands limit operands = .ok g'.flagged := by
  obtain ⟨hallowed, rfl⟩ := addOperands_eq_ok h
  exact if_pos hallowed

end Given

open Given

section Arguments

variable {v : Verb} {g g' : Given} {p : Pending}

/-- What a step of the reading does with the options read so far: it keeps them all, and does the
same with a flag of a dry run before them, unless it reads such a flag itself. -/
structure Steady {α : Type} (read : Given → Except Refusal (Given × α)) : Prop where
  kept : ∀ {g p}, read g = .ok p → p.1.Extends g
  flagged : ∀ {g p}, read g = .ok p → ¬ p.1.has dryRunRule.name →
    read g.flagged = .ok (p.1.flagged, p.2)

namespace Steady

variable {α β : Type}

theorem refused (r : Refusal) : Steady (α := α) fun _ => .error r where
  kept h := by cases h
  flagged h := by cases h

theorem done (a : α) : Steady fun g => .ok (g, a) where
  kept h := by
    cases h
    exact .refl _
  flagged h _ := by
    cases h
    rfl

theorem bind {read : Given → Except Refusal (Given × α)}
    {next : α → Given → Except Refusal (Given × β)} (hread : Steady read)
    (hnext : ∀ a, Steady (next a)) :
    Steady fun g => (read g).bind fun p => next p.2 p.1 where
  kept {g p} h := by
    obtain ⟨q, hg, h⟩ := Result.ok_of_bind h
    exact ((hnext q.2).kept h).trans (hread.kept hg)
  flagged {g p} h hdry := by
    obtain ⟨q, hg, h⟩ := Result.ok_of_bind h
    have hdry' : ¬ q.1.has dryRunRule.name := fun hq => hdry (((hnext q.2).kept h).has hq)
    simp only [hread.flagged hg hdry', Except.bind]
    exact (hnext q.2).flagged h hdry

theorem add (o : OptionRule) (value : String) (a : α) :
    Steady fun g => (g.add o value).map (·, a) where
  kept h := by
    obtain ⟨g', hg', rfl⟩ := Result.ok_of_map h
    exact .add hg'
  flagged h hdry := by
    obtain ⟨g', hg', rfl⟩ := Result.ok_of_map h
    rw [add_flagged hg' hdry]
    rfl

theorem addOperands (limit : Option Nat) (operands : List String) (a : α) :
    Steady fun g => (g.addOperands limit operands).map (·, a) where
  kept h := by
    obtain ⟨g', hg', rfl⟩ := Result.ok_of_map h
    exact .addOperands hg'
  flagged h _ := by
    obtain ⟨g', hg', rfl⟩ := Result.ok_of_map h
    rw [addOperands_flagged hg']
    rfl

end Steady

theorem steady_readLong (v : Verb) (text : String) : Steady (readLong v · text) := by
  unfold readLong
  dsimp only
  split
  · split
    · exact .add _ _ none
    · exact .refused _
  · split
    · exact .done _
    · exact .add _ _ none
  · split
    · exact .refused _
    · split <;> exact .refused _
  · exact .refused _

theorem steady_readShort (v : Verb) : (letters : List Char) → Steady (readShort v · letters)
  | [] => by
    unfold readShort
    exact .done none
  | c :: rest => by
    unfold readShort
    split
    · split
      · split
        · exact .done _
        · exact .add _ _ none
        · exact .add _ _ none
      · rename_i o _ _
        have hstep := (Steady.add o "" ()).bind fun _ => steady_readShort v rest
        refine cast (congrArg Steady (funext fun g => ?_)) hstep
        cases g.add o "" <;> rfl
    · split
      · exact .refused _
      · split <;> exact .refused _

theorem steady_readDashed (v : Verb) (argument : String) : Steady (readDashed v · argument) := by
  unfold readDashed
  split
  · exact steady_readLong v _
  · exact steady_readShort v _
  · exact .refused _

/-- What follows an argument with a dash: the value of its option, if that waits for one. -/
def readOn (v : Verb) (wait : Option OptionRule) (rest : List String) (g : Given) :
    Except Refusal (Given × Option (String × List String)) :=
  match wait, rest with
  | none, rest => readVerb v g rest
  | some _, [] => .error .usage
  | some o, value :: rest =>
    if isDashed value then .error .usage
    else ((g.add o value).map (·, ())).bind fun p => readVerb v p.1 rest

theorem readVerb_dashed {argument : String} (rest : List String) (hd : isDashed argument)
    (hne : argument ≠ "--") :
    readVerb v g (argument :: rest) =
      (readDashed v g argument).bind fun p => readOn v p.2 rest p.1 := by
  rw [readVerb]
  · rw [if_pos hd]
    rcases readDashed v g argument with r | ⟨g', _ | o⟩
    · rfl
    · rfl
    · rcases rest with _ | ⟨value, rest⟩
      · rfl
      · simp only [Except.bind, readOn]
        split
        · rfl
        · cases g'.add o value <;> rfl
  · exact hne

theorem readVerb_operand {argument : String} (rest : List String) (hd : ¬ isDashed argument)
    (hv : v.verbs.isEmpty) :
    readVerb v g (argument :: rest) =
      ((g.addOperands v.operandLimit [argument]).map (·, ())).bind fun p =>
        readVerb v p.1 rest := by
  rw [readVerb]
  · rw [if_neg hd, if_pos hv]
    cases g.addOperands v.operandLimit [argument] <;> rfl
  · rintro rfl
    exact hd rfl

theorem readVerb_verb {argument : String} (rest : List String) (hd : ¬ isDashed argument)
    (hv : ¬ v.verbs.isEmpty) :
    readVerb v g (argument :: rest) =
      if v.verbs.contains argument then .ok (g, some (argument, rest))
      else if argument = "help" && isTopic v.way rest then .error .help
      else .error .usage := by
  rw [readVerb]
  · rw [if_neg hd, if_neg hv]
  · rintro rfl
    exact hd rfl

theorem steady_readVerb (v : Verb) : (arguments : List String) → Steady (readVerb v · arguments)
  | [] => by
    unfold readVerb
    exact .done none
  | argument :: rest => by
    by_cases hne : argument = "--"
    · subst hne
      unfold readVerb
      exact .addOperands _ rest none
    by_cases hd : isDashed argument
    · -- an option that waits takes its value off the arguments too
      have hon : (wait : Option OptionRule) → Steady (readOn v wait rest) := fun wait => by
        match wait, rest with
        | none, rest => exact steady_readVerb v rest
        | some _, [] => exact .refused _
        | some o, value :: rest =>
          by_cases hvalue : isDashed value
          · rw [show readOn v (some o) (value :: rest) = fun _ => .error .usage from
              funext fun _ => if_pos hvalue]
            exact .refused _
          · rw [show readOn v (some o) (value :: rest) = fun g =>
                ((g.add o value).map (·, ())).bind fun p => readVerb v p.1 rest from
              funext fun _ => if_neg hvalue]
            exact (Steady.add o value ()).bind fun _ => steady_readVerb v rest
      simp only [readVerb_dashed rest hd hne]
      exact (steady_readDashed v argument).bind hon
    by_cases hv : v.verbs.isEmpty
    · simp only [readVerb_operand rest hd hv]
      exact (Steady.addOperands _ [argument] ()).bind fun _ => steady_readVerb v rest
    · simp only [readVerb_verb rest hd hv]
      split
      · exact .done _
      · split <;> exact .refused _

/-- The verbs at which a dry run can be asked for. -/
def Verb.TakesDryRun (v : Verb) : Prop :=
  v.options.find? (·.name = dryRunRule.name) = some dryRunRule

/-- The flag of a dry run is among the arguments, and not behind the mark that ends all options. -/
def AsksDryRun (arguments : List String) : Prop :=
  "--dry-run" ∈ arguments.takeWhile (· ≠ "--")

theorem asksDryRun_cons {argument : String} {rest : List String} :
    AsksDryRun (argument :: rest) ↔
      argument ≠ "--" ∧ (argument = "--dry-run" ∨ AsksDryRun rest) := by
  by_cases h : argument = "--"
  · simp [AsksDryRun, h]
  · simp [AsksDryRun, h, eq_comm]

theorem readDashed_dryRun (hv : v.TakesDryRun) :
    readDashed v g "--dry-run" = (g.add dryRunRule "").map (·, none) := by
  have hname : String.ofList ("dry-run".toList.takeWhile (· ≠ '=')) = dryRunRule.name := by decide
  have hvalue : ("dry-run".toList.dropWhile (· ≠ '=')).tail?.map String.ofList = none := by decide
  have hlong : readDashed v g "--dry-run" = readLong v g "dry-run" := rfl
  rw [hlong]
  simp only [readLong, hname, hvalue]
  rw [hv]
  rfl

/-- A flag that is given at a verb is among the options read there, or is left for the next. -/
theorem has_or_asks_of_readVerb (hv : v.TakesDryRun) :
    (arguments : List String) → {g g' : Given} → {next : Option (String × List String)} →
    readVerb v g arguments = .ok (g', next) → AsksDryRun arguments →
    g'.has dryRunRule.name ∨
      ¬ v.verbs.isEmpty ∧ ∃ verb rest, next = some (verb, rest) ∧ AsksDryRun rest
  | [], _, _, _, _, hasks => by simp [AsksDryRun] at hasks
  | argument :: rest, g, g', next, h, hasks => by
    obtain ⟨hne, hasks⟩ := asksDryRun_cons.mp hasks
    by_cases hd : isDashed argument
    · rw [readVerb_dashed rest hd hne] at h
      rcases hasks with rfl | hasks
      · rw [readDashed_dryRun hv] at h
        obtain ⟨_, hdashed, h⟩ := Result.ok_of_bind h
        obtain ⟨g₁, hadd, rfl⟩ := Result.ok_of_map hdashed
        exact .inl (((steady_readVerb v rest).kept h).has (has_add hadd))
      · obtain ⟨⟨g₁, wait⟩, -, h⟩ := Result.ok_of_bind h
        match wait, rest with
        | none, rest => exact has_or_asks_of_readVerb hv rest h hasks
        | some _, [] => cases h
        | some o, value :: rest =>
          simp only [readOn] at h
          split at h
          · cases h
          · rename_i hvalue
            -- the flag is not taken for the value, since it starts with a dash
            obtain ⟨-, rfl | hasks⟩ := asksDryRun_cons.mp hasks
            · exact absurd rfl hvalue
            · obtain ⟨p, -, h⟩ := Result.ok_of_bind h
              exact has_or_asks_of_readVerb hv rest h hasks
    · have hasks : AsksDryRun rest := hasks.resolve_left fun h => hd (h ▸ rfl)
      by_cases hempty : v.verbs.isEmpty
      · rw [readVerb_operand rest hd hempty] at h
        obtain ⟨p, -, h⟩ := Result.ok_of_bind h
        exact has_or_asks_of_readVerb hv rest h hasks
      · rw [readVerb_verb rest hd hempty] at h
        split at h
        · cases h
          exact .inr ⟨hempty, argument, rest, rfl, hasks⟩
        · split at h <;> cases h

end Arguments

theorem readInner_eq_ok {v : Verb} {arguments rest : List String} {g : Given} {verb : String}
    (h : readInner v arguments = .ok (g, verb, rest)) :
    readVerb v {} arguments = .ok (g, some (verb, rest)) := by
  unfold readInner at h
  split at h
  · cases h
  · rename_i hread
    cases h
    exact hread
  · cases h

theorem readLast_eq_ok {v : Verb} {arguments : List String} {g : Given}
    (h : readLast v arguments = .ok g) : ∃ next, readVerb v {} arguments = .ok (g, next) := by
  obtain ⟨⟨g', next⟩, hread, rfl⟩ := Result.ok_of_map h
  exact ⟨next, hread⟩

/-- What a verb gives that no other follows. -/
def IsLast (arguments : List String) (g : Given) : Prop :=
  ∃ v : Verb, v.TakesDryRun ∧ v.verbs.isEmpty ∧ ∃ next, readVerb v {} arguments = .ok (g, next)

theorem isLast_of_readLast {v : Verb} {arguments : List String} {g : Given}
    (h : readLast v arguments = .ok g) (hv : v.TakesDryRun) (hempty : v.verbs.isEmpty) :
    IsLast arguments g :=
  ⟨v, hv, hempty, readLast_eq_ok h⟩

theorem isLast_of_readTutorial {verb : String} {arguments : List String} {c : Command} {g : Given}
    (h : readTutorial verb arguments = .ok (c, g)) : IsLast arguments g := by
  unfold readTutorial at h
  split at h
  · obtain ⟨g', hread, hg⟩ := Result.ok_of_map h
    cases hg
    exact isLast_of_readLast hread rfl rfl
  · obtain ⟨g', hread, hg⟩ := Result.ok_of_map h
    cases hg
    exact isLast_of_readLast hread rfl rfl
  · obtain ⟨g', hread, h⟩ := Result.ok_of_bind h
    cases h
    exact isLast_of_readLast hread rfl rfl

theorem isLast_of_readVersioning {verb : String} {arguments : List String} {c : Command}
    {g : Given} (h : readVersioning verb arguments = .ok (c, g)) : IsLast arguments g := by
  unfold readVersioning at h
  split at h
  · obtain ⟨g', hread, hg⟩ := Result.ok_of_map h
    cases hg
    exact isLast_of_readLast hread rfl rfl
  · obtain ⟨g', hread, h⟩ := Result.ok_of_bind h
    split at h
    · cases h
      exact isLast_of_readLast hread rfl rfl
    · cases h
  · obtain ⟨g', hread, h⟩ := Result.ok_of_bind h
    split at h
    · cases h
    · cases h
      exact isLast_of_readLast hread rfl rfl

/-- Reads the arguments of the last verb of a group. -/
def readGroup (group verb : String) (arguments : List String) : Except Refusal (Command × Given) :=
  if group = "tutorial" then readTutorial verb arguments else readVersioning verb arguments

theorem isLast_of_readGroup {group verb : String} {arguments : List String} {c : Command}
    {g : Given} (h : readGroup group verb arguments = .ok (c, g)) : IsLast arguments g := by
  unfold readGroup at h
  split at h
  · exact isLast_of_readTutorial h
  · exact isLast_of_readVersioning h

/-- Reads the arguments behind the first verb. -/
def readBelow (env : Environment) (group : String) (rest : List String) (root : Given) :
    Except Refusal Invocation := do
  let (inner, verb, rest) ← readInner (groupVerb group) rest
  let (command, last) ← readGroup group verb rest
  let levels := [last, inner, root]
  checkEnvironment levels env
  return { settings := settings levels env, command }

variable {env : Environment} {arguments : List String} {i : Invocation}

theorem invocation_eq (env : Environment) (arguments : List String) :
    invocation env arguments =
      (readInner rootVerb arguments).bind fun p => readBelow env p.2.1 p.2.2 p.1 := by
  unfold invocation
  rcases readInner rootVerb arguments with r | ⟨root, group, rest⟩
  · rfl
  · simp only [bind, Except.bind, readBelow, readGroup]
    rcases readInner (groupVerb group) rest with r | ⟨inner, verb, rest⟩
    · rfl
    · by_cases hgroup : group = "tutorial" <;> simp only [hgroup, if_true, if_false]

theorem invocation_eq_ok (h : invocation env arguments = .ok i) :
    ∃ root group rest, readVerb rootVerb {} arguments = .ok (root, some (group, rest)) ∧
      readBelow env group rest root = .ok i := by
  rw [invocation_eq] at h
  obtain ⟨p, hread, h⟩ := Result.ok_of_bind h
  exact ⟨p.1, p.2.1, p.2.2, readInner_eq_ok hread, h⟩

theorem invocation_of_readVerb {root : Given} {group : String} {rest : List String}
    (h : readVerb rootVerb {} arguments = .ok (root, some (group, rest))) :
    invocation env arguments = readBelow env group rest root := by
  rw [invocation_eq, readInner, h]
  rfl

theorem readBelow_eq_ok {group : String} {rest : List String} {root : Given}
    (h : readBelow env group rest root = .ok i) :
    ∃ inner verb rest' last, readVerb (groupVerb group) {} rest = .ok (inner, some (verb, rest')) ∧
      IsLast rest' last ∧ i.settings = settings [last, inner, root] env := by
  obtain ⟨p, hinner, h⟩ := Result.ok_of_bind h
  obtain ⟨q, hlast, h⟩ := Result.ok_of_bind h
  obtain ⟨-, -, h⟩ := Result.ok_of_bind h
  cases h
  exact ⟨p.1, p.2.1, p.2.2, q.2, readInner_eq_ok hinner, isLast_of_readGroup hlast, rfl⟩

theorem settings_flagged (last inner root : Given) (env : Environment) :
    settings [last, inner, root.flagged] env =
      { settings [last, inner, root] env with dryRun := true } := by
  have hdry : root.flagged.has "dry-run" = true := flagged_has
  have hdebug : root.flagged.has "debug" = root.has "debug" := has_flagged (by decide)
  simp only [settings, List.any_cons, hdry, hdebug, Bool.or_true, Bool.true_or]
  rfl

theorem checkEnvironment_flagged (last inner root : Given) (env : Environment) :
    checkEnvironment [last, inner, root.flagged] env =
      checkEnvironment [last, inner, root] env := by
  have hconfig : root.flagged.has "config" = root.has "config" := has_flagged (by decide)
  have htaxonomy : root.flagged.has "taxonomy" = root.has "taxonomy" := has_flagged (by decide)
  simp [checkEnvironment, hconfig, htaxonomy]

theorem readBelow_flagged {group : String} {rest : List String} {root : Given}
    (h : readBelow env group rest root = .ok i) :
    readBelow env group rest root.flagged = .ok i.dry := by
  simp only [readBelow, checkEnvironment_flagged, settings_flagged, bind, Except.bind] at h ⊢
  -- both sides are matched on the same readings
  split at h
  · cases h
  split at h
  · cases h
  split at h
  · cases h
  cases h
  rfl

/-- The flag of a dry run, given anywhere as an option, makes a dry run. -/
theorem dryRun_of_asks (h : invocation env arguments = .ok i) (hasks : AsksDryRun arguments) :
    i.settings.dryRun := by
  obtain ⟨root, group, rest, hroot, hbelow⟩ := invocation_eq_ok h
  obtain ⟨inner, verb, rest', last, hinner, ⟨v, hlastv, hempty, next, hlast⟩, hsettings⟩ :=
    readBelow_eq_ok hbelow
  have hdry : i.settings.dryRun = [last, inner, root].any (·.has dryRunRule.name) := by
    rw [hsettings]
    rfl
  have hany : root.has dryRunRule.name ∨ inner.has dryRunRule.name ∨ last.has dryRunRule.name := by
    have hv : rootVerb.TakesDryRun := rfl
    rcases has_or_asks_of_readVerb hv _ hroot hasks with h | ⟨-, _, _, h, hasks⟩
    · exact .inl h
    cases h
    have hv : (groupVerb group).TakesDryRun := rfl
    rcases has_or_asks_of_readVerb hv _ hinner hasks with h | ⟨-, _, _, h, hasks⟩
    · exact .inr (.inl h)
    cases h
    rcases has_or_asks_of_readVerb hlastv _ hlast hasks with h | ⟨h, -⟩
    · exact .inr (.inr h)
    · exact absurd hempty h
  rw [hdry]
  rcases hany with h | h | h <;> simp [h]

/-- Behind the mark that ends all options, the flag is an operand. -/
example :
    (invocation (fun _ => none) ["versioning", "only-include", "--", "--dry-run"]).toOption.map
      (·.settings.dryRun) = some false := by decide

/-- A flag before all other arguments makes a dry run of what they ask for. -/
theorem invocation_dryRun (h : invocation env arguments = .ok i)
    (hdry : i.settings.dryRun = false) :
    invocation env ("--dry-run" :: arguments) = .ok i.dry := by
  obtain ⟨root, group, rest, hroot, hbelow⟩ := invocation_eq_ok h
  have hnot : ¬ root.has dryRunRule.name := by
    obtain ⟨inner, _, _, last, -, -, hsettings⟩ := readBelow_eq_ok hbelow
    rw [hsettings] at hdry
    simp only [settings, List.any_cons, Bool.or_eq_false_iff] at hdry
    simpa [dryRunRule] using hdry.2.2.1
  have hread : readVerb rootVerb {} ("--dry-run" :: arguments) =
      .ok (root.flagged, some (group, rest)) :=
    (steady_readVerb rootVerb arguments).flagged hroot hnot
  rw [invocation_of_readVerb hread, readBelow_flagged hbelow]

end Command

end SiteConfig
