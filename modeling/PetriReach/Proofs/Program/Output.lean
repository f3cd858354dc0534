import PetriReach.Program
import PetriReach.Proofs.Options.Flags
import PetriReach.Proofs.Race.OneByOne

/-!
# What the program prints

Whatever goes wrong, and wherever, the program exits with 1 and prints nothing. Otherwise it exits
with 0 and prints what it was asked for: nothing for help, the version, or the verdict of the race,
if there is one, and the time. That holds for every course that the race can take, and every course
comes to an end.

* `Program.Fails`: all that can go wrong.
* `Program.Decides`: the verdict that the race comes to.
* `Program.exit_and_stdout`: the exit status and what is printed.
-/

namespace PetriReach.Program

open Options

/-! ## What is asked -/

/-- A question is asked, and neither help nor the version. -/
def Asks (words : List String) : Prop :=
  ¬ Flag.help.Given words ∧ ¬ Flag.version.Given words

/-- An input is missing or malformed. -/
inductive Flawed (o : Options) (files : Files) : Prop
  | noNet (h : files o.net = none)
  | badNet {s : String} {e : Net.ReadError} (h : files o.net = some s)
    (he : Net.parseStored s = .error e)
  | noFormula (hfile : o.formulaFile ≠ "") (h : files o.formulaFile = none)
  | badFormula {s : String} {e : SyntaxError} (hfile : o.formulaFile ≠ "")
    (h : files o.formulaFile = some s) (he : Formula.parseStored s = .error e)
  | badText {e : SyntaxError} (hfile : o.formulaFile = "") (he : Formula.parse o.formula = .error e)

/-- A race is asked for, about a net and a formula. -/
structure Poses (words : List String) (files : Files) (o : Options) (net : Net) (f : Formula) :
    Prop where
  parsed : Options.parse words = .ok o
  asks : Asks words
  races : ¬ Flag.dummy.Given words
  inputs : Program.inputs o files = .ok (net, f)

/-- A race is asked for, and can be set up. -/
structure Races (words : List String) (files : Files) (o : Options) (net : Net) (f : Formula)
    (r : Race) : Prop extends Poses words files o net f where
  made : Race.make net f (raceOptions o) = .ok r

/-- The race that is asked for takes this course, and then its crew is in this state. -/
def Takes (words : List String) (files : Files) (backends : List (Option Backend))
    (programs : List String) (acts : List Act) (crew : Crew) : Prop :=
  ∃ o net f r, Races words files o net f r ∧ (r.crew programs backends).perform acts = some crew

/-- Something goes wrong: the command line, an input, the setup of the race or one of its
workers. -/
inductive Fails (words : List String) (files : Files) (backends : List (Option Backend))
    (programs : List String) (acts : List Act) : Prop
  | usage {e : UsageError} (h : Options.parse words = .error e)
  | input {o : Options} (h : Options.parse words = .ok o) (hasks : Asks words)
    (hflawed : Flawed o files)
  | setup {o : Options} {net : Net} {f : Formula} {e : EncodingError}
    (h : Poses words files o net f) (he : Race.make net f (raceOptions o) = .error e)
  | race {crew : Crew} {j : Nat} {w : Worker} {view : List (List Event)} {x : Fault}
    (h : Takes words files backends programs acts crew) (hw : crew.workers[j]? = some w)
    (hview : w.view = some view) (hx : w.checker.Raises (w.surroundings programs view) x)
    (herror : x.isError = true)

/-- The race that is asked for comes to a verdict. -/
def Decides (words : List String) (files : Files) (backends : List (Option Backend))
    (programs : List String) (acts : List Act) (v : Verdict) : Prop :=
  ∃ crew, Takes words files backends programs acts crew ∧
    (Cohort.lead crew.results).map (·.2) = some v

/-- The line with a verdict. -/
def verdictLine : Verdict → Printed
  | .reachable => .text "FORMULA REACHABLE\n"
  | .notReachable => .text "FORMULA NOT REACHABLE\n"
  | .unknown => .text "FORMULA UNKNOWN\n"

/-! ## Inputs -/

section Inputs

variable {o : Options} {files : Files}

theorem read_error_iff {α ε : Type} (files : Files) (path : String) (parse : String → Except ε α)
    (wrap : ε → Failure) :
    (∃ e, (files.read path >>= fun s => (parse s).mapError wrap) = .error e) ↔
      files path = none ∨ ∃ s e, files path = some s ∧ parse s = .error e := by
  unfold Files.read
  cases files path with
  | none => exact iff_of_true ⟨_, rfl⟩ (.inl rfl)
  | some s =>
    constructor
    · rintro ⟨e, he⟩
      cases hparse : parse s with
      | error x => exact .inr ⟨s, x, rfl, hparse⟩
      | ok a =>
        have hok : (parse s).mapError wrap = .error e := he
        rw [hparse] at hok
        cases hok
    · rintro (h | ⟨s', x, h, hparse⟩)
      · cases h
      · cases h
        refine ⟨wrap x, ?_⟩
        show (parse s).mapError wrap = _
        rw [hparse]
        rfl

/-- The formula that is asked about. -/
def formulaOf (o : Options) (files : Files) : Except Failure Formula :=
  if o.formulaFile = "" then (Formula.parse o.formula).mapError .formula
  else files.readFormula o.formulaFile

theorem inputs_eq (o : Options) (files : Files) :
    inputs o files = files.readNet o.net >>= fun net => (formulaOf o files).map (net, ·) := by
  unfold inputs formulaOf
  cases files.readNet o.net with
  | error e => rfl
  | ok net =>
    split
    · rfl
    · rfl

theorem inputs_error_iff : (∃ e, inputs o files = .error e) ↔
    (∃ e, files.readNet o.net = .error e) ∨ ∃ e, formulaOf o files = .error e := by
  rw [inputs_eq]
  cases files.readNet o.net with
  | error e => exact iff_of_true ⟨e, rfl⟩ (.inl ⟨e, rfl⟩)
  | ok net =>
    cases formulaOf o files with
    | error e => exact iff_of_true ⟨e, rfl⟩ (.inr ⟨e, rfl⟩)
    | ok f =>
      refine iff_of_false ?_ ?_
      · rintro ⟨e, ⟨⟩⟩
      · rintro (⟨e, ⟨⟩⟩ | ⟨e, ⟨⟩⟩)

/-- **The inputs are read unless one of them is flawed.** -/
theorem flawed_iff : Flawed o files ↔ ∃ e, inputs o files = .error e := by
  have hnet : (∃ e, files.readNet o.net = .error e) ↔ _ :=
    read_error_iff files o.net Net.parseStored .net
  have hfile : (∃ e, files.readFormula o.formulaFile = .error e) ↔ _ :=
    read_error_iff files o.formulaFile Formula.parseStored .formula
  rw [inputs_error_iff, hnet, formulaOf]
  constructor
  · intro hflawed
    cases hflawed with
    | noNet h => exact .inl (.inl h)
    | badNet h he => exact .inl (.inr ⟨_, _, h, he⟩)
    | noFormula hsome h =>
      rw [if_neg hsome, hfile]
      exact .inr (.inl h)
    | badFormula hsome h he =>
      rw [if_neg hsome, hfile]
      exact .inr (.inr ⟨_, _, h, he⟩)
    | badText hnone he =>
      rw [if_pos hnone, he]
      exact .inr ⟨_, rfl⟩
  · rintro ((h | ⟨s, e, h, he⟩) | h)
    · exact .noNet h
    · exact .badNet h he
    · by_cases hnone : o.formulaFile = ""
      · rw [if_pos hnone] at h
        cases hparse : Formula.parse o.formula with
        | error e => exact .badText hnone hparse
        | ok f =>
          rw [hparse] at h
          obtain ⟨e, ⟨⟩⟩ := h
      · rw [if_neg hnone, hfile] at h
        obtain h | ⟨s, e, h, he⟩ := h
        · exact .noFormula hnone h
        · exact .badFormula hnone h he

end Inputs

/-! ## Reports -/

section Reports

variable {o : Options} {a : Arena}

theorem report_error (o : Options) (e : Failure) (a : Arena) :
    (report o (.error e) a).exit = 1 ∧ (report o (.error e) a).stdout = [] :=
  ⟨rfl, rfl⟩

theorem report_ok (o : Options) (verdict : Option Verdict) (a : Arena) :
    (report o (.ok verdict) a).exit = 0 ∧ (report o (.ok verdict) a).stdout =
      (verdict.map verdictLine).toList ++ if o.showTime then [.elapsed] else [] := by
  refine ⟨rfl, ?_⟩
  cases verdict with
  | none => rfl
  | some v => cases v <;> rfl

/-- What is printed does not depend on the diagnostics. -/
theorem conclude_congr (o : Options) (result : Except Fault Race.Result) (a a' : Arena) :
    (conclude o result a).exit = (conclude o result a').exit ∧
      (conclude o result a).stdout = (conclude o result a').stdout := by
  cases result with
  | error x => exact ⟨rfl, rfl⟩
  | ok r => exact ⟨rfl, rfl⟩

end Reports

/-! ## What a command line comes down to -/

section Tasks

variable {words : List String} {files : Files} {backends : List (Option Backend)}
  {programs : List String} {trials : List Trial.Case} {acts : List Act} {o : Options} {net : Net}
  {f : Formula} {r : Race}

/-- The surroundings in which a race begins. -/
def entrance (o : Options) (net : Net) (f : Formula) (backends : List (Option Backend))
    (programs : List String) : Arena :=
  present o net f (surroundings o backends programs)

theorem entrance_undisturbed (o : Options) (net : Net) (f : Formula)
    (backends : List (Option Backend)) (programs : List String) :
    (entrance o net f backends programs).Undisturbed ∧
      (entrance o net f backends programs).backends = backends ∧
      (entrance o net f backends programs).programs = programs := by
  have hinfo : ∀ (a : Arena) (text : String),
      a.Undisturbed ∧ a.backends = backends ∧ a.programs = programs →
      (a.info text).Undisturbed ∧ (a.info text).backends = backends ∧
        (a.info text).programs = programs := by
    rintro a text ⟨hquiet, hrest⟩
    obtain ⟨log, hlog⟩ := Arena.info_of_undisturbed hquiet text
    rw [hlog]
    exact ⟨hquiet, hrest⟩
  exact hinfo _ _ (hinfo _ _ (hinfo _ _ ⟨⟨rfl, rfl⟩, rfl, rfl⟩))

theorem task_of_asks (hparse : Options.parse words = .ok o) (hplain : ¬ Flag.selftest.Given words)
    (hasks : Asks words) : task words files backends programs trials =
      question o files (surroundings o backends programs) := by
  have hhelp : ¬ o.help = true := mt (Flag.raised_iff_given hparse .help).mp hasks.1
  have hselftest : ¬ o.selftest = true := mt (Flag.raised_iff_given hparse .selftest).mp hplain
  have hversion : ¬ o.version = true := mt (Flag.raised_iff_given hparse .version).mp hasks.2
  rw [task, hparse]
  dsimp only
  rw [if_neg hhelp, if_neg hselftest, if_neg hversion]

/-- What a question comes down to if its inputs are read. -/
theorem task_of_inputs (hparse : Options.parse words = .ok o)
    (hplain : ¬ Flag.selftest.Given words) (hasks : Asks words)
    (hinputs : inputs o files = .ok (net, f)) : task words files backends programs trials =
      pose o net f (entrance o net f backends programs) := by
  rw [task_of_asks hparse hplain hasks, question, hinputs]
  rfl

theorem Poses.not_dummy (h : Poses words files o net f) : ¬ o.dummy = true :=
  mt (Flag.raised_iff_given h.parsed .dummy).mp h.races

/-- What is printed without a race: something went wrong, or the dummy was asked for. -/
inductive Settled (words : List String) (files : Files) (o : Options) :
    Except Failure (Option Verdict) → Prop
  | input {e : Failure} (h : inputs o files = .error e) : Settled words files o (.error e)
  | dummy {net : Net} {f : Formula} (h : inputs o files = .ok (net, f))
    (hdummy : Flag.dummy.Given words) : Settled words files o (.ok none)
  | setup {net : Net} {f : Formula} {e : EncodingError} (h : Poses words files o net f)
    (he : Race.make net f (raceOptions o) = .error e) : Settled words files o (.error (.encoding e))

/-- **What a question comes down to**: an answer, or a race. -/
theorem task_cases (hparse : Options.parse words = .ok o) (hplain : ¬ Flag.selftest.Given words)
    (hasks : Asks words) :
    (∃ answer a, Settled words files o answer ∧
      task words files backends programs trials = .done (report o answer a)) ∨
    ∃ net f r, Races words files o net f r ∧
      task words files backends programs trials =
        .race o r (entrance o net f backends programs) := by
  cases hinputs : inputs o files with
  | error e =>
    rw [task_of_asks hparse hplain hasks, question, hinputs]
    exact .inl ⟨_, _, .input hinputs, rfl⟩
  | ok pair =>
    obtain ⟨net, f⟩ := pair
    rw [task_of_inputs hparse hplain hasks hinputs, pose]
    by_cases hdummy : Flag.dummy.Given words
    · have hup : o.dummy = true := (Flag.raised_iff_given hparse .dummy).mpr hdummy
      rw [if_pos hup]
      exact .inl ⟨_, _, .dummy hinputs hdummy, rfl⟩
    · have hposes : Poses words files o net f := ⟨hparse, hasks, hdummy, hinputs⟩
      rw [if_neg hposes.not_dummy]
      cases hmake : Race.make net f (raceOptions o) with
      | error e => exact .inl ⟨_, _, .setup hposes hmake, rfl⟩
      | ok r => exact .inr ⟨net, f, r, ⟨hposes, hmake⟩, rfl⟩

theorem Races.unique {o' : Options} {net' : Net} {f' : Formula} {r' : Race}
    (h : Races words files o net f r) (h' : Races words files o' net' f' r') :
    o = o' ∧ r = r' := by
  cases h.parsed.symm.trans h'.parsed
  cases h.inputs.symm.trans h'.inputs
  cases h.made.symm.trans h'.made
  exact ⟨rfl, rfl⟩

theorem Races.task_eq (h : Races words files o net f r) (hplain : ¬ Flag.selftest.Given words) :
    task words files backends programs trials =
      .race o r (entrance o net f backends programs) := by
  rw [task_of_inputs h.parsed hplain h.asks h.inputs, pose, if_neg h.not_dummy, h.made]

/-! ## Courses -/

theorem play_of_done {out out' : Output}
    (htask : task words files backends programs trials = .done out) :
    play words files backends programs trials acts = some out' ↔ acts = [] ∧ out' = out := by
  rw [play, htask]
  dsimp only
  split
  · next hacts => simp [hacts, eq_comm (a := out')]
  · next hacts => simp [hacts]

theorem Races.play_eq_some (h : Races words files o net f r)
    (hplain : ¬ Flag.selftest.Given words) {out : Output} :
    play words files backends programs trials acts = some out ↔ ∃ crew result,
      (r.crew programs backends).perform acts = some crew ∧ crew.result = some result ∧
        out = conclude o result (entrance o net f backends programs) := by
  obtain ⟨-, hbackends, hprograms⟩ := entrance_undisturbed o net f backends programs
  rw [play, h.task_eq hplain]
  dsimp only
  rw [hbackends, hprograms]
  simp only [Option.bind_eq_bind, Option.bind_eq_some_iff, Option.pure_def, Option.some.injEq,
    eq_comm (a := out)]
  constructor
  · rintro ⟨crew, hcrew, result, hresult, hout⟩
    exact ⟨crew, result, hcrew, hresult, hout⟩
  · rintro ⟨crew, result, hcrew, hresult, hout⟩
    exact ⟨crew, hcrew, result, hresult, hout⟩

/-- A race has at most four workers. -/
theorem Races.length_le (h : Races words files o net f r) : r.checkers.length ≤ 4 := by
  have hlength := congrArg List.length (Race.make_ok h.made).1
  rw [List.length_map] at hlength
  rw [hlength]
  exact List.length_filter_le _ _

/-- **Every course comes to an end**, and soon. -/
theorem Takes.exists_play {crew : Crew} (h : Takes words files backends programs acts crew)
    (hplain : ¬ Flag.selftest.Given words) : acts.length ≤ 10 ∧
      ∃ more out, play words files backends programs trials (acts ++ more) = some out := by
  obtain ⟨o, net, f, r, hraces, hacts⟩ := h
  have horderly := Crew.orderly_crew r programs backends
  have hlength := Crew.length_perform horderly hacts
  have hfour := hraces.length_le
  rw [Crew.remaining_crew] at hlength
  obtain ⟨more, crew', result, hmore, hresult⟩ := (horderly.perform hacts).exists_end
  refine ⟨by omega, more, conclude o result (entrance o net f backends programs), ?_⟩
  exact (hraces.play_eq_some hplain).mpr
    ⟨crew', result, Crew.perform_append hacts hmore, hresult, rfl⟩

/-- A race is run only where one is asked for. -/
theorem task_eq_race {a : Arena} (h : task words files backends programs trials = .race o r a) :
    ∃ net f, Race.make net f (raceOptions o) = .ok r ∧ a = entrance o net f backends programs := by
  unfold task at h
  split at h
  · cases h
  · split_ifs at h
    unfold question at h
    split at h
    · cases h
    · next net f hinputs =>
      unfold pose at h
      split_ifs at h
      split at h
      · cases h
      · next hmake =>
        cases h
        exact ⟨net, f, hmake, rfl⟩

/-- **One after another is one of the courses.** -/
theorem exists_play_eq_run (words : List String) (files : Files)
    (backends : List (Option Backend)) (programs : List String) (trials : List Trial.Case) :
    ∃ acts out, play words files backends programs trials acts = some out ∧
      out.exit = (run words files backends programs trials).exit ∧
      out.stdout = (run words files backends programs trials).stdout := by
  unfold run
  cases htask : task words files backends programs trials with
  | done out => exact ⟨[], out, (play_of_done htask).mpr ⟨rfl, rfl⟩, rfl, rfl⟩
  | race o r a =>
    obtain ⟨net, f, hmake, rfl⟩ := task_eq_race htask
    have hquiet := (entrance_undisturbed o net f backends programs).1
    obtain ⟨acts, crew, hacts, hresult⟩ := Race.run_is_course hquiet
      fun c hc => Race.config_of_make ((Race.make_ok hmake).2 c hc)
    refine ⟨acts, conclude o (r.run _).1 (entrance o net f backends programs), ?_,
      conclude_congr o _ _ _⟩
    rw [play, htask]
    exact Option.bind_eq_some_iff.mpr ⟨crew, hacts, Option.bind_eq_some_iff.mpr ⟨_, hresult, rfl⟩⟩

/-! ## What is printed -/

/-- **Whatever goes wrong, nothing is printed.** -/
theorem play_of_fails (hplain : ¬ Flag.selftest.Given words) {out : Output}
    (hplay : play words files backends programs trials acts = some out)
    (h : Fails words files backends programs acts) : out.exit = 1 ∧ out.stdout = [] := by
  cases h with
  | @usage e h =>
    have htask : task words files backends programs trials = .done
        { exit := 1, stderr := "ERROR: " ++ e.message ++ "\n" ++ Options.usage name } := by
      rw [task, h]
    obtain ⟨-, rfl⟩ := (play_of_done htask).mp hplay
    exact ⟨rfl, rfl⟩
  | @input o h hasks hflawed =>
    obtain ⟨e, he⟩ := flawed_iff.mp hflawed
    have htask : task words files backends programs trials =
        .done (report o (.error e) (surroundings o backends programs)) := by
      rw [task_of_asks h hplain hasks, question, he]
    obtain ⟨-, rfl⟩ := (play_of_done htask).mp hplay
    exact report_error ..
  | @setup o net f e h he =>
    have htask : task words files backends programs trials =
        .done (report o (.error (.encoding e)) (entrance o net f backends programs)) := by
      rw [task_of_inputs h.parsed hplain h.asks h.inputs, pose, if_neg h.not_dummy, he]
    obtain ⟨-, rfl⟩ := (play_of_done htask).mp hplay
    exact report_error ..
  | @race crew j w view x h hw hview hx herror =>
    obtain ⟨o, net, f, r, hraces, hacts⟩ := h
    obtain ⟨crew', result, hcrew, hresult, rfl⟩ := (hraces.play_eq_some hplain).mp hplay
    obtain rfl : crew = crew' := Option.some.inj (hacts.symm.trans hcrew)
    have horderly := (Crew.orderly_crew r programs backends).perform hacts
    have hprograms : crew.programs = programs := Crew.programs_perform hacts
    obtain ⟨x, rfl⟩ := (horderly.error_iff hresult).mpr
      ⟨_, _, _, _, hw, hview, hprograms.symm ▸ hx, herror⟩
    exact report_error o (.race x) _

/-- **The answer is printed** if nothing goes wrong. -/
theorem play_of_asks (hparse : Options.parse words = .ok o) (hplain : ¬ Flag.selftest.Given words)
    (hasks : Asks words) {out : Output}
    (hplay : play words files backends programs trials acts = some out)
    (h : ¬ Fails words files backends programs acts) : ∃ verdict : Option Verdict,
      (∀ v, verdict = some v ↔ Decides words files backends programs acts v) ∧ out.exit = 0 ∧
      out.stdout = (verdict.map verdictLine).toList ++ if o.showTime then [.elapsed] else [] := by
  obtain ⟨answer, a, hsettled, htask⟩ | ⟨net, f, r, hraces, -⟩ :=
    task_cases hparse hplain hasks
  · obtain ⟨-, rfl⟩ := (play_of_done htask).mp hplay
    cases hsettled with
    | input he => exact absurd (.input hparse hasks (flawed_iff.mpr ⟨_, he⟩)) h
    | dummy hinputs hdummy =>
      refine ⟨none, fun v => ⟨nofun, ?_⟩, report_ok ..⟩
      rintro ⟨crew, ⟨o', net', f', r', hraces, -⟩, -⟩
      exact absurd hdummy hraces.races
    | setup hposes he => exact absurd (.setup hposes he) h
  · obtain ⟨crew, result, hcrew, hresult, rfl⟩ := (hraces.play_eq_some hplain).mp hplay
    have horderly := (Crew.orderly_crew r programs backends).perform hcrew
    have hprograms : crew.programs = programs := Crew.programs_perform hcrew
    have htakes : Takes words files backends programs acts crew := ⟨o, net, f, r, hraces, hcrew⟩
    cases result with
    | error x =>
      obtain ⟨j, w, view, y, hw, hview, hy, herror⟩ := (horderly.error_iff hresult).mp ⟨x, rfl⟩
      exact absurd (.race htakes hw hview (hprograms ▸ hy) herror) h
    | ok res =>
      have hverdict := horderly.verdict_of_result hresult rfl
      refine ⟨res.verdict, fun v => ⟨fun hv => ⟨crew, htakes, hverdict ▸ hv⟩, ?_⟩, report_ok ..⟩
      rintro ⟨crew', ⟨o', net', f', r', hraces', hcrew'⟩, hlead⟩
      obtain ⟨rfl, rfl⟩ := hraces.unique hraces'
      cases hcrew.symm.trans hcrew'
      rw [hverdict, hlead]

end Tasks

/-- **The exit status and what is printed.** Whatever course the race takes, it comes to an end
after at most ten acts; what the program does by itself is one of the courses. After each of them,
it exits with 1 and prints nothing if something goes wrong. Otherwise it exits with 0 and prints
nothing for help, the version, or the verdict of the race, if it comes to one, and behind it the
time, if that was asked for. -/
theorem exit_and_stdout (words : List String) (files : Files) (backends : List (Option Backend))
    (programs : List String) (trials : List Trial.Case) (hplain : ¬ Flag.selftest.Given words) :
    (∀ acts crew, Takes words files backends programs acts crew → acts.length ≤ 10 ∧
      ∃ more out, play words files backends programs trials (acts ++ more) = some out) ∧
    (∃ acts out, play words files backends programs trials acts = some out ∧
      out.exit = (run words files backends programs trials).exit ∧
      out.stdout = (run words files backends programs trials).stdout) ∧
    ∀ acts out, play words files backends programs trials acts = some out →
      (Fails words files backends programs acts → out.exit = 1 ∧ out.stdout = []) ∧
      (¬ Fails words files backends programs acts →
        out.exit = 0 ∧
        (Flag.help.Given words → out.stdout = []) ∧
        (¬ Flag.help.Given words → Flag.version.Given words →
          out.stdout = [.text "usmpt 0.1.0\n"]) ∧
        (Asks words → ∃ verdict : Option Verdict,
          (∀ v, verdict = some v ↔ Decides words files backends programs acts v) ∧
          (Flag.showTime.Given words →
            out.stdout = (verdict.map verdictLine).toList ++ [.elapsed]) ∧
          (¬ Flag.showTime.Given words → out.stdout = (verdict.map verdictLine).toList))) := by
  refine ⟨fun acts crew htakes => htakes.exists_play hplain,
    exists_play_eq_run words files backends programs trials,
    fun acts out hplay => ⟨play_of_fails hplain hplay, fun h => ?_⟩⟩
  cases hparse : Options.parse words with
  | error e => exact absurd (.usage hparse) h
  | ok o =>
    have hhelp : o.help = true ↔ Flag.help.Given words := Flag.raised_iff_given hparse .help
    have hversion : o.version = true ↔ Flag.version.Given words :=
      Flag.raised_iff_given hparse .version
    have htime : o.showTime = true ↔ Flag.showTime.Given words :=
      Flag.raised_iff_given hparse .showTime
    have hselftest : ¬ o.selftest = true := mt (Flag.raised_iff_given hparse .selftest).mp hplain
    by_cases hasks : Asks words
    · obtain ⟨verdict, hverdict, hexit, hstdout⟩ := play_of_asks hparse hplain hasks hplay h
      refine ⟨hexit, fun hgiven => absurd hgiven hasks.1, fun _ hgiven => absurd hgiven hasks.2,
        fun _ => ⟨verdict, hverdict, fun hgiven => ?_, fun hgiven => ?_⟩⟩
      · rw [hstdout, if_pos (htime.mpr hgiven)]
      · rw [hstdout, if_neg (mt htime.mp hgiven), List.append_nil]
    · by_cases hgiven : Flag.help.Given words
      · have htask : task words files backends programs trials =
            .done { exit := 0, stderr := Options.usage name } := by
          rw [task, hparse]
          exact if_pos (hhelp.mpr hgiven)
        obtain ⟨-, rfl⟩ := (play_of_done htask).mp hplay
        exact ⟨rfl, fun _ => rfl, fun hno => absurd hgiven hno, fun hno => absurd hno hasks⟩
      · have hasked : Flag.version.Given words := by
          by_contra hno
          exact hasks ⟨hgiven, hno⟩
        have htask : task words files backends programs trials =
            .done { exit := 0, stdout := [.text (name ++ " " ++ version ++ "\n")] } := by
          rw [task, hparse]
          dsimp only
          rw [if_neg (mt hhelp.mp hgiven), if_neg hselftest, if_pos (hversion.mpr hasked)]
        obtain ⟨-, rfl⟩ := (play_of_done htask).mp hplay
        exact ⟨rfl, fun hyes => absurd hyes hgiven, fun _ _ => rfl, fun hno => absurd hno hasks⟩

/-- A question about a net with one token. -/
def cellWords : List String :=
  ["-n", "cell.net", "-f", "p >= 1", "--methods", "BMC", "--show-time"]

/-- The options of that question. -/
def cellOptions : Options where
  net := "cell.net"
  formula := "p >= 1"
  methods := [.bmc]
  showTime := true

/-- A file with a net. -/
def cellFiles (text : String) : Files :=
  fun path => if path = "cell.net" then some text else none

/-- The worker runs unimpeded and hands in its result. -/
def cellActs : List Act := [.leave 0 [[]], .finish 0]

theorem parse_cellWords : Options.parse cellWords = .ok cellOptions := by
  decide +kernel

theorem cell_given (k : Flag) : k.Given cellWords ↔ k = .showTime := by
  rw [← Flag.raised_iff_given parse_cellWords]
  cases k <;> decide

/-- A question to the embedded solver. -/
def trivialWords : List String :=
  ["-n", "cell.net", "-f", "T", "--methods", "BMC", "--solver", "embedded"]

theorem trivial_plain : ¬ Flag.selftest.Given trivialWords := by
  have hparse : Options.parse trivialWords =
      .ok { net := "cell.net", formula := "T", methods := [.bmc],
            config := { kind := .embedded } } := by
    decide +kernel
  rw [← Flag.raised_iff_given hparse]
  decide

/-- A solver that finds the token at once has the verdict printed, and the time behind it. Without
the file nothing is printed, and neither if a place has a name that no solver can read. -/
theorem cell_printed :
    ¬ Flag.selftest.Given cellWords ∧
    Decides cellWords (cellFiles "pl p (1)\n") [some { answers := ["sat"] }] ["z3"] cellActs
      .reachable ∧
    (play cellWords (cellFiles "pl p (1)\n") [some { answers := ["sat"] }] ["z3"] []
      cellActs).map (·.stdout) = some [.text "FORMULA REACHABLE\n", .elapsed] ∧
    (∃ out, play cellWords (fun _ => none) [] ["z3"] [] [] = some out ∧ out.exit = 1 ∧
      out.stdout = []) ∧
    ¬ Flag.selftest.Given trivialWords ∧
    Fails trivialWords (cellFiles "pl a|b (1)\n") [] [] cellActs := by
  have hplain : ¬ Flag.selftest.Given cellWords := by simp [cell_given]
  have hasks : Asks cellWords := by simp [Asks, cell_given]
  refine ⟨hplain, ?_, by decide +kernel, ?_, trivial_plain, ?_⟩
  · have hrun : (play cellWords (cellFiles "pl p (1)\n") [some { answers := ["sat"] }] ["z3"] []
        cellActs).map (fun out => (out.exit, out.stdout)) =
          some (0, [.text "FORMULA REACHABLE\n", .elapsed]) := by decide +kernel
    obtain ⟨out, hplay, hout⟩ := Option.map_eq_some_iff.mp hrun
    obtain ⟨hexit, hstdout⟩ := Prod.mk.inj hout
    obtain ⟨hfails, hprints⟩ := (exit_and_stdout cellWords (cellFiles "pl p (1)\n")
      [some { answers := ["sat"] }] ["z3"] [] hplain).2.2 cellActs out hplay
    have hfine : ¬ Fails cellWords (cellFiles "pl p (1)\n") [some { answers := ["sat"] }] ["z3"]
        cellActs := by
      intro h
      rw [hexit] at hfails
      cases (hfails h).1
    obtain ⟨verdict, hverdict, htime, -⟩ := (hprints hfine).2.2.2 hasks
    have hline := htime ((cell_given _).mpr rfl)
    rw [hstdout] at hline
    refine (hverdict _).mp ?_
    cases verdict with
    | none => cases hline
    | some v =>
      cases v with
      | reachable => rfl
      | notReachable => simp [verdictLine] at hline
      | unknown => simp [verdictLine] at hline
  · have hrun : (play cellWords (fun _ => none) [] ["z3"] [] []).isSome = true := by
      decide +kernel
    obtain ⟨out, hplay⟩ := Option.isSome_iff_exists.mp hrun
    refine ⟨out, hplay, ((exit_and_stdout cellWords (fun _ => none) [] ["z3"] [] hplain).2.2 []
      out hplay).1 ?_⟩
    exact .input parse_cellWords hasks (.noNet rfl)
  · have hrun : (play trivialWords (cellFiles "pl a|b (1)\n") [] [] [] cellActs).map (·.exit) =
        some 1 := by decide +kernel
    obtain ⟨out, hplay, hexit⟩ := Option.map_eq_some_iff.mp hrun
    obtain ⟨-, hprints⟩ := (exit_and_stdout trivialWords (cellFiles "pl a|b (1)\n") [] [] []
      trivial_plain).2.2 cellActs out hplay
    by_contra h
    have hzero := (hprints h).1
    omega

end PetriReach.Program
